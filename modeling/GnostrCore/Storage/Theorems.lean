import GnostrCore.Storage.Storage

namespace GnostrCore.Storage

open GnostrCore.Encoding

theorem Node.fromBytes_toBytes (index : UInt64) {node : Node} (h : node.hash.length = 32) :
    Node.fromBytes index node.toBytes = .ok { node with index } := by
  rcases node with ⟨idx, ⟨hs, hsp⟩, len⟩
  have hh : hs.length = 32 := h
  have hl : 40 ≤ (hs ++ leBytes 8 len.toNat).length := by simp [hh]
  have ht : (hs ++ leBytes 8 len.toNat).take 32 = hs := by rw [← hh, List.take_left' rfl]
  have hd : (hs ++ leBytes 8 len.toNat).drop 32 = leBytes 8 len.toNat := by
    rw [← hh, List.drop_left' rfl]
  have h256 : (256 : Nat) ^ 8 = 2 ^ 64 := by norm_num
  simp only [Node.fromBytes, Node.toBytes, if_pos hl, ht, hd, leValue_leBytes, h256,
    Nat.mod_eq_of_lt (UInt64.toNat_lt _), UInt64.ofNat_toNat]
  rfl

@[simp]
theorem HEADER_OFFSET_toNat : HEADER_OFFSET.toNat = 32 := rfl

-- `32 + 40 * i` and the record after it fit in a `u64`
def InRange (i : UInt64) : Prop := 32 + 40 * i.toNat + 40 ≤ 2 ^ 64

instance (i : UInt64) : Decidable (InRange i) := inferInstanceAs (Decidable (_ ≤ _))

theorem recordOffset_toNat {i : UInt64} (h : InRange i) :
    (HEADER_OFFSET + 40 * i).toNat = 32 + 40 * i.toNat := by
  unfold InRange at h
  simp (disch := omega) only [UInt64.toNat_add, UInt64.toNat_mul, UInt64.size_eq, HEADER_OFFSET_toNat,
    show (40 : UInt64).toNat = 40 from rfl, Nat.mod_eq_of_lt]

theorem length_toBytes {node : Node} (h : node.hash.length = 32) : node.toBytes.length = 40 := by
  have hh : node.hash.toList.length = 32 := h
  simp [Node.toBytes, hh]

-- A read of a record finds the last node written at the same offset, under the index it asks for.
theorem getNode_putNode_of_offset (s : Storage) {node : Node} {i : UInt64}
    (h : node.hash.length = 32) (hoff : HEADER_OFFSET + 40 * i = HEADER_OFFSET + 40 * node.index) :
    (s.putNode node).getNode i = .ok { node with index := i } := by
  have hr := read_write_self s.tree node.toBytes (HEADER_OFFSET + 40 * node.index).toNat
  rw [length_toBytes h] at hr
  simp only [Storage.getNode, Storage.putNode, hoff, hr, ok_bind]
  exact Node.fromBytes_toBytes _ h

theorem getNode_putNode_self (s : Storage) {node : Node} (h : node.hash.length = 32) :
    (s.putNode node).getNode node.index = .ok node :=
  getNode_putNode_of_offset s h rfl

theorem getNode_putNode_ne (s : Storage) {node : Node} {i : UInt64} (h : node.hash.length = 32)
    (hn : InRange node.index) (hi : InRange i) (hne : node.index ≠ i) {x : Node}
    (hx : s.getNode i = .ok x) : (s.putNode node).getNode i = .ok x := by
  have hne' : node.index.toNat ≠ i.toNat := fun e => hne (UInt64.toNat.inj e)
  obtain ⟨buf, hbuf, hx⟩ := bind_eq_ok.mp hx
  refine bind_eq_ok.mpr ⟨buf, read_write_disjoint hbuf ?_, hx⟩
  rw [recordOffset_toNat hn, recordOffset_toNat hi, length_toBytes h]
  omega

-- a hash of 32 equal bytes
def fillHash (b : UInt8) : Vec UInt8 := ⟨List.replicate 32 b, by rw [List.length_replicate]; decide⟩

-- `40 * 2^61` is `5 * 2^64`: the record of flat index `2^61` is the record of index 0.
theorem putNode_wraps_onto_index_zero (s : Storage) (l₀ l₁ : UInt64) :
    ((s.putNode ⟨0, fillHash 0, l₀⟩).putNode ⟨2 ^ 61, fillHash 1, l₁⟩).getNode 0 =
      .ok ⟨0, fillHash 1, l₁⟩ := by
  have hoff : HEADER_OFFSET + 40 * (0 : UInt64) = HEADER_OFFSET + 40 * (2 ^ 61 : UInt64) := by
    decide
  exact getNode_putNode_of_offset _ rfl hoff

-- a run of `put_node` calls
def putNodes (s : Storage) (nodes : List Node) : Storage := nodes.foldl Storage.putNode s

-- Puts at other indices keep a record, as long as every record stays inside the `u64` range.
theorem getNode_putNodes_frame {i : UInt64} (hi : InRange i) {x : Node} :
    ∀ (s : Storage) (ms : List Node), (∀ m ∈ ms, m.hash.length = 32 ∧ InRange m.index) →
      (∀ m ∈ ms, m.index ≠ i) → s.getNode i = .ok x → (putNodes s ms).getNode i = .ok x := by
  intro s ms
  induction ms generalizing s with
  | nil => exact fun _ _ h => h
  | cons m ms ih =>
    intro hok hne hs
    have hm := hok m (List.mem_cons_self m ms)
    exact ih _ (fun n hn => hok n (List.mem_cons_of_mem m hn))
      (fun n hn => hne n (List.mem_cons_of_mem m hn))
      (getNode_putNode_ne s hm.1 hm.2 hi (hne m (List.mem_cons_self m ms)) hs)

theorem getNode_putNodes_last (s : Storage) (pre post : List Node) (node : Node)
    (hok : ∀ n ∈ pre ++ node :: post, n.hash.length = 32 ∧ InRange n.index)
    (hpost : ∀ m ∈ post, m.index ≠ node.index) :
    (putNodes s (pre ++ node :: post)).getNode node.index = .ok node := by
  have hnode := hok node (by simp)
  rw [putNodes, List.foldl_append, List.foldl_cons]
  exact getNode_putNodes_frame hnode.2 _ post (fun m hm => hok m (by simp [hm])) hpost
    (getNode_putNode_self _ hnode.1)

-- After a run of puts at distinct indices, each node reads back as it was put.
theorem getNode_putNodes_of_nodup (s : Storage) (ms : List Node)
    (hok : ∀ m ∈ ms, m.hash.length = 32 ∧ InRange m.index) (hnd : (ms.map (·.index)).Nodup) :
    ∀ n ∈ ms, (putNodes s ms).getNode n.index = .ok n := by
  intro n hn
  obtain ⟨pre, post, rfl⟩ := List.append_of_mem hn
  refine getNode_putNodes_last s pre post n hok fun m hm he => ?_
  rw [List.map_append, List.map_cons] at hnd
  exact (List.nodup_cons.mp (List.nodup_append.mp hnd).2.1).1 (he ▸ List.mem_map_of_mem _ hm)

-- three nodes of a tree over two blocks of 2 and 3 bytes
def threeNodes : List Node := [⟨0, fillHash 0, 2⟩, ⟨1, fillHash 1, 5⟩, ⟨2, fillHash 2, 3⟩]

theorem getNode_putNodes_three :
    (∀ m ∈ threeNodes, m.hash.length = 32 ∧ InRange m.index) ∧ (threeNodes.map (·.index)).Nodup ∧
    ∀ n ∈ threeNodes, (putNodes ⟨[], [], [], []⟩ threeNodes).getNode n.index = .ok n :=
  ⟨by decide, by decide, getNode_putNodes_of_nodup _ threeNodes (by decide) (by decide)⟩

-- A put inside the `u64` range never touches the 32 bytes of the segment's header.
theorem putNode_keeps_header (s : Storage) {node : Node} (hn : InRange node.index)
    {header : List UInt8} (hh : read s.tree 0 32 = .ok header) :
    read (s.putNode node).tree 0 32 = .ok header :=
  read_write_disjoint hh (Or.inl (by rw [recordOffset_toNat hn]; omega))

theorem putNode_keeps_header_zero :
    InRange 0 ∧ read (List.replicate 32 7) 0 32 = .ok (List.replicate 32 7) ∧
      read (Storage.putNode ⟨List.replicate 32 7, [], [], []⟩ ⟨0, fillHash 1, 5⟩).tree 0 32 =
        .ok (List.replicate 32 7) :=
  ⟨by decide, rfl, putNode_keeps_header ⟨List.replicate 32 7, [], [], []⟩ (by decide) rfl⟩

theorem leafLength_eq (s : Storage) (cached_nodes : List Node) {b : UInt64} {l : Nat}
    (hl : l < 2 ^ 64) (h : ∃ node, s.getNode b = .ok node ∧ node.length.toNat = l) :
    s.leafLength cached_nodes b =
      .ok (((findNode cached_nodes b).map (·.length)).getD (UInt64.ofNat l)) := by
  unfold Storage.leafLength
  cases findNode cached_nodes b with
  | some node => rfl
  | none =>
    obtain ⟨node, hn, hlen⟩ := h
    have : node.length = UInt64.ofNat l :=
      UInt64.toNat.inj (by rw [hlen, UInt64.toNat_ofNat_mod, Nat.mod_eq_of_lt hl])
    simp only [hn, ok_bind, this]
    rfl

theorem dataOffsetLoop_eq (s : Storage) (cached_nodes : List Node) (block_index : UInt64)
    {α : Type} (root : α → UInt64) (w : α → Nat) :
    ∀ (xs : List α) (offset : UInt64),
      (∀ x ∈ xs, ∃ node, s.getNode (root x) = .ok node ∧ node.length.toNat = w x) →
      offset.toNat + (xs.map w).sum < 2 ^ 64 → xs ≠ [] → xs.length < 2 ^ 64 →
      dataOffsetLoop s cached_nodes block_index (xs.map root) offset (UInt64.ofNat xs.length) =
        (do
          let len ← s.leafLength cached_nodes block_index
          pure (UInt64.ofNat (offset.toNat + (xs.map w).sum),
            UInt64.ofNat (offset.toNat + (xs.map w).sum) + len)) := by
  intro xs
  induction xs with
  | nil => intro _ _ _ h; exact absurd rfl h
  | cons x xs ih =>
    intro offset hnodes hsum _ hlen
    obtain ⟨node, hn, hw⟩ := hnodes x (List.mem_cons_self x xs)
    simp only [List.map_cons, List.sum_cons, List.length_cons] at hsum hlen ⊢
    have hoff : (offset + node.length).toNat = offset.toNat + w x := by
      rw [UInt64.toNat_add, UInt64.size_eq, hw, Nat.mod_eq_of_lt (by omega)]
    rw [dataOffsetLoop, hn, ok_bind, UInt64.ofNat_add, UInt64.ofNat_one, add_sub_cancel_right]
    by_cases hxs : xs = []
    · subst hxs
      have hlast : offset + node.length = UInt64.ofNat (offset.toNat + w x) :=
        UInt64.toNat.inj (by rw [hoff, UInt64.toNat_ofNat_mod, Nat.mod_eq_of_lt (by simpa using hsum)])
      simp only [List.length_nil, UInt64.ofNat_zero, gt_iff_lt, UInt64.lt_irrefl, if_false,
        List.map_nil, List.sum_nil, Nat.add_zero, hlast]
    · have hpos : UInt64.ofNat xs.length > 0 := by
        rw [gt_iff_lt, UInt64.lt_iff_toNat_lt, UInt64.toNat_ofNat_mod, Nat.mod_eq_of_lt (by omega)]
        exact List.length_pos.mpr hxs
      rw [if_pos hpos, ih _ (fun y hy => hnodes y (List.mem_cons_of_mem x hy)) (by omega) hxs
        (by omega), hoff, Nat.add_assoc]

-- The tree segment holds a Merkle tree over `L` blocks of lengths `len`: every leaf, and every
-- root of every prefix, with the length its span sums to.
structure Consistent (s : Storage) (len : Nat → Nat) (L : Nat) : Prop where
  blocks_le : L ≤ 2 ^ 63
  total_lt : spanSum len 0 L < 2 ^ 64
  leaves : ∀ j < L, ∃ node, s.getNode (UInt64.ofNat (2 * j)) = .ok node ∧ node.length.toNat = len j
  roots : ∀ m ≤ L, ∀ x ∈ cover 64 m 0, ∃ node, s.getNode (UInt64.ofNat x.1) = .ok node ∧
    node.length.toNat = spanSum len x.2.1 x.2.2

-- the bytes up to the end of block `i` fit in a `u64`
theorem Consistent.end_lt {s : Storage} {len : Nat → Nat} {L i : Nat} (hc : Consistent s len L)
    (hi : i < L) : spanSum len 0 i + len i < 2 ^ 64 :=
  lt_of_le_of_lt (spanSum_add_le_of_lt len hi) hc.total_lt

theorem dataOffset_eq {s : Storage} {len : Nat → Nat} {L i : Nat} (hc : Consistent s len L)
    (hi : i < L) (cached_nodes : List Node) :
    s.dataOffset (UInt64.ofNat i) cached_nodes =
      .ok (UInt64.ofNat (spanSum len 0 i), UInt64.ofNat (spanSum len 0 i) +
        ((findNode cached_nodes (UInt64.ofNat (2 * i))).map (·.length)).getD (UInt64.ofNat (len i))) := by
  have hL := hc.blocks_le
  have hend := hc.end_lt hi
  have h2i : 2 * i < 2 ^ 64 := by omega
  have hblock : treeIndex (UInt64.ofNat i) = UInt64.ofNat (2 * i) :=
    UInt64.toNat.inj (by
      rw [treeIndex, UInt64.toNat_mul, UInt64.size_eq, UInt64.toNat_ofNat_mod, UInt64.toNat_ofNat_mod,
        Nat.mod_eq_of_lt (show i < 2 ^ 64 by omega)]
      rfl)
  have hroots' : fullRoots (treeIndex (UInt64.ofNat i)) =
      (cover 64 i 0).map fun x => UInt64.ofNat x.1 := by
    rw [fullRoots, hblock, UInt64.toNat_ofNat_mod, Nat.mod_eq_of_lt h2i, Nat.mul_div_cancel_left i two_pos]
  have hleaf := leafLength_eq s cached_nodes (show len i < 2 ^ 64 by omega) (hc.leaves i hi)
  simp only [Storage.dataOffset, hroots', List.length_map]
  rw [hblock]
  have hi64 : i < 2 ^ 64 := by omega
  rcases Nat.eq_zero_or_pos i with rfl | hpos
  · have hc : cover 64 0 0 = [] := (cover_eq_nil_iff (by norm_num)).mpr rfl
    rw [hc, if_pos (by decide), hleaf, ok_bind]
    rfl
  · have hne : cover 64 i 0 ≠ [] := fun h => Nat.pos_iff_ne_zero.mp hpos ((cover_eq_nil_iff hi64).mp h)
    have hlen := length_cover_le 64 i 0
    have hpend : UInt64.ofNat (cover 64 i 0).length ≠ 0 := fun h => by
      have := congrArg UInt64.toNat h
      rw [UInt64.toNat_ofNat_mod, Nat.mod_eq_of_lt (by omega), UInt64.toNat_zero] at this
      exact hne (List.length_eq_zero.mp this)
    have hsum : (0 : UInt64).toNat + ((cover 64 i 0).map fun x => spanSum len x.2.1 x.2.2).sum < 2 ^ 64 := by
      rw [UInt64.toNat_zero, Nat.zero_add, cover_spanSum, Nat.mod_eq_of_lt hi64]
      omega
    have hloop := dataOffsetLoop_eq s cached_nodes (UInt64.ofNat (2 * i))
      (fun x : Nat × Nat × Nat => UInt64.ofNat x.1) (fun x => spanSum len x.2.1 x.2.2)
      (cover 64 i 0) 0 (hc.roots i hi.le) hsum hne (by omega)
    rw [if_neg hpend, pure_bind, hloop, hleaf, ok_bind, cover_spanSum, Nat.mod_eq_of_lt hi64,
      UInt64.toNat_zero, Nat.zero_add]
    rfl

-- `find_node` is the first node of the list with the flat index
theorem findNode_eq_find (nodes : List Node) (index : UInt64) :
    findNode nodes index = nodes.find? (fun node => node.index = index) :=
  rfl

-- For a consistent tree, `data_offset` of a block returns for every cache, past the roots loop:
-- the block's range starts after the bytes of the blocks before it and spans the length of the
-- first cached node of the block, or else the stored one, when that range fits in a `u64`.
theorem dataOffset_of_consistent (s : Storage) (len : Nat → Nat) (L : Nat) (hL : L ≤ 2 ^ 63)
    (htotal : spanSum len 0 L < 2 ^ 64)
    (hleaves : ∀ j < L, ∃ node, s.getNode (UInt64.ofNat (2 * j)) = .ok node ∧
      node.length.toNat = len j)
    (hroots : ∀ m ≤ L, ∀ x ∈ cover 64 m 0, ∃ node, s.getNode (UInt64.ofNat x.1) = .ok node ∧
      node.length.toNat = spanSum len x.2.1 x.2.2)
    (i : Nat) (hi : i < L) :
    (∀ cached_nodes, ∃ r, s.dataOffset (UInt64.ofNat i) cached_nodes = .ok r) ∧
    ∀ cached_nodes : List Node,
      (∀ node, cached_nodes.find? (fun node => node.index = UInt64.ofNat (2 * i)) = some node →
        spanSum len 0 i + node.length.toNat < 2 ^ 64) →
      ∃ r, s.dataOffset (UInt64.ofNat i) cached_nodes = .ok r ∧ r.1.toNat = spanSum len 0 i ∧
        r.2.toNat = spanSum len 0 i +
          ((cached_nodes.find? (fun node => node.index = UInt64.ofNat (2 * i))).map
            (·.length.toNat)).getD (len i) := by
  have hc : Consistent s len L := ⟨hL, htotal, hleaves, hroots⟩
  have hend := hc.end_lt hi
  have ho : (UInt64.ofNat (spanSum len 0 i)).toNat = spanSum len 0 i := by
    rw [UInt64.toNat_ofNat_mod, Nat.mod_eq_of_lt (by omega)]
  refine ⟨fun cached_nodes => ⟨_, dataOffset_eq hc hi cached_nodes⟩, fun cached_nodes hcache => ?_⟩
  refine ⟨_, dataOffset_eq hc hi cached_nodes, ho, ?_⟩
  rw [findNode_eq_find]
  cases hn : cached_nodes.find? (fun node => node.index = UInt64.ofNat (2 * i)) with
  | none =>
    rw [Option.map_none', Option.getD_none, Option.map_none', Option.getD_none, UInt64.toNat_add,
      UInt64.size_eq, ho, UInt64.toNat_ofNat_mod, Nat.mod_eq_of_lt (show len i < 2 ^ 64 by omega),
      Nat.mod_eq_of_lt hend]
  | some node =>
    rw [Option.map_some', Option.getD_some, Option.map_some', Option.getD_some, UInt64.toNat_add,
      UInt64.size_eq, ho, Nat.mod_eq_of_lt (hcache node hn)]

-- the tree of the two blocks of 2 and 3 bytes: leaves at flat indices 0 and 2, their parent at 1
def twoBlockTree : Storage := putNodes ⟨[], [], [], []⟩ threeNodes

def twoBlockLengths (j : Nat) : Nat := if j = 0 then 2 else 3

theorem twoBlockTree_consistent : Consistent twoBlockTree twoBlockLengths 2 where
  blocks_le := by decide
  total_lt := by decide
  leaves := by
    intro j hj
    interval_cases j
    · exact ⟨_, getNode_putNodes_last _ [] _ _ (by decide) (by decide), rfl⟩
    · exact ⟨_, getNode_putNodes_last _ [_, _] [] _ (by decide) (by decide), rfl⟩
  roots := by
    intro m hm x hx
    interval_cases m
    · simp [show cover 64 0 0 = [] by decide] at hx
    · rw [show cover 64 1 0 = [(0, 0, 1)] by decide, List.mem_singleton] at hx
      subst hx
      exact ⟨_, getNode_putNodes_last _ [] _ _ (by decide) (by decide), rfl⟩
    · rw [show cover 64 2 0 = [(1, 0, 2)] by decide, List.mem_singleton] at hx
      subst hx
      exact ⟨_, getNode_putNodes_last _ [_] [_] _ (by decide) (by decide), rfl⟩

-- a cache with a node of block 0 and two of block 1, of 7 and 9 bytes
def twoBlockCache : List Node := [⟨0, fillHash 0, 5⟩, ⟨2, fillHash 2, 7⟩, ⟨2, fillHash 2, 9⟩]

theorem dataOffset_first_cached_node :
    2 ≤ 2 ^ 63 ∧ spanSum twoBlockLengths 0 2 < 2 ^ 64 ∧
    (∀ j < 2, ∃ node, twoBlockTree.getNode (UInt64.ofNat (2 * j)) = .ok node ∧
      node.length.toNat = twoBlockLengths j) ∧
    (∀ m ≤ 2, ∀ x ∈ cover 64 m 0, ∃ node, twoBlockTree.getNode (UInt64.ofNat x.1) = .ok node ∧
      node.length.toNat = spanSum twoBlockLengths x.2.1 x.2.2) ∧ 1 < 2 ∧
    (∀ node, twoBlockCache.find? (fun node => node.index = UInt64.ofNat (2 * 1)) = some node →
      spanSum twoBlockLengths 0 1 + node.length.toNat < 2 ^ 64) ∧
    ∃ r, twoBlockTree.dataOffset (UInt64.ofNat 1) twoBlockCache = .ok r ∧
      r.1.toNat = spanSum twoBlockLengths 0 1 ∧
      r.2.toNat = spanSum twoBlockLengths 0 1 +
        ((twoBlockCache.find? (fun node => node.index = UInt64.ofNat (2 * 1))).map
          (·.length.toNat)).getD (twoBlockLengths 1) := by
  have hcache : ∀ node, twoBlockCache.find? (fun node => node.index = UInt64.ofNat (2 * 1)) =
      some node → spanSum twoBlockLengths 0 1 + node.length.toNat < 2 ^ 64 := by
    intro node h
    cases (show twoBlockCache.find? (fun node => node.index = UInt64.ofNat (2 * 1)) =
      some ⟨2, fillHash 2, 7⟩ from rfl).symm.trans h
    decide
  exact ⟨by decide, by decide, twoBlockTree_consistent.leaves, twoBlockTree_consistent.roots,
    by decide, hcache, (dataOffset_of_consistent twoBlockTree twoBlockLengths 2 (by decide)
      (by decide) twoBlockTree_consistent.leaves twoBlockTree_consistent.roots 1 (by decide)).2
      twoBlockCache hcache⟩

-- A cached length that reaches past `u64` wraps the end of the range below its start.
theorem dataOffset_cached_length_wraps :
    twoBlockTree.dataOffset (UInt64.ofNat 1) [⟨2, fillHash 2, 18446744073709551615⟩] = .ok (2, 1) := by
  rw [dataOffset_eq twoBlockTree_consistent (show 1 < 2 by decide)]
  rfl

theorem getNode_of_tree_eq {s s' : Storage} (h : s'.tree = s.tree) (i : UInt64) :
    s'.getNode i = s.getNode i := by
  simp only [Storage.getNode, h]

-- The consistency of a storage is a property of its tree segment alone.
theorem Consistent.of_tree_eq {s s' : Storage} {len : Nat → Nat} {L : Nat}
    (hc : Consistent s len L) (h : s'.tree = s.tree) : Consistent s' len L where
  blocks_le := hc.blocks_le
  total_lt := hc.total_lt
  leaves := by simpa only [getNode_of_tree_eq h] using hc.leaves
  roots := by simpa only [getNode_of_tree_eq h] using hc.roots

-- `o + l - o` and the count of `o..o + l` are `l` when `o + l` does not wrap
theorem sub_ofNat_add {o l : Nat} (h : o + l < 2 ^ 64) :
    (UInt64.ofNat o + UInt64.ofNat l - UInt64.ofNat o).toNat = l := by
  rw [add_sub_cancel_left, UInt64.toNat_ofNat_mod, Nat.mod_eq_of_lt (by omega)]

theorem rangeCount_ofNat {o l : Nat} (h : o + l < 2 ^ 64) :
    (rangeCount (UInt64.ofNat o, UInt64.ofNat o + UInt64.ofNat l)).toNat = l := by
  have hle : UInt64.ofNat o ≤ UInt64.ofNat o + UInt64.ofNat l := by
    rw [UInt64.le_iff_toNat_le, UInt64.toNat_add, UInt64.size_eq, UInt64.toNat_ofNat_mod, UInt64.toNat_ofNat_mod,
      Nat.mod_eq_of_lt (show o < 2 ^ 64 by omega), Nat.mod_eq_of_lt (show l < 2 ^ 64 by omega),
      Nat.mod_eq_of_lt h]
    omega
  rw [rangeCount, if_pos hle, sub_ofNat_add h]

section Blocks

variable {s : Storage} {len : Nat → Nat} {L i : Nat}

theorem getData_eq (hc : Consistent s len L) (hi : i < L) :
    s.getData (UInt64.ofNat i) = read s.data (spanSum len 0 i) (len i) := by
  have hend := hc.end_lt hi
  rw [Storage.getData, dataOffset_eq hc hi [], ok_bind]
  simp only [findNode, List.find?_nil, Option.map_none', Option.getD_none]
  rw [rangeCount_ofNat hend, UInt64.toNat_ofNat_mod, Nat.mod_eq_of_lt (by omega)]

theorem putData_eq (hc : Consistent s len L) (hi : i < L) {data : List UInt8}
    (hlen : data.length = len i) (hne : data ≠ []) :
    s.putData (UInt64.ofNat i) data [] = .ok { s with data := write s.data (spanSum len 0 i) data } := by
  have hend := hc.end_lt hi
  rw [Storage.putData, if_neg (by rw [List.isEmpty_iff]; exact hne), dataOffset_eq hc hi [], ok_bind]
  simp only [findNode, List.find?_nil, Option.map_none', Option.getD_none, sub_ofNat_add hend, hlen,
    ne_eq, not_true_eq_false, if_false, pure_bind, UInt64.toNat_ofNat_mod,
    Nat.mod_eq_of_lt (show spanSum len 0 i < 2 ^ 64 by omega)]
  rfl

-- A block written with `put_data` reads back with `get_data`, and every other block reads as
-- it did: the ranges of distinct blocks are disjoint.
theorem putData_getData (hc : Consistent s len L) (hi : i < L) (data : List UInt8)
    (hlen : data.length = len i) (hne : data ≠ []) :
    ∃ s', s.putData (UInt64.ofNat i) data [] = .ok s' ∧ s'.tree = s.tree ∧
      s'.bitfield = s.bitfield ∧ s'.oplog = s.oplog ∧
      s'.getData (UInt64.ofNat i) = .ok data ∧
      ∀ j < L, j ≠ i → ∀ bs, s.getData (UInt64.ofNat j) = .ok bs →
        s'.getData (UInt64.ofNat j) = .ok bs := by
  have hc' : Consistent { s with data := write s.data (spanSum len 0 i) data } len L :=
    hc.of_tree_eq rfl
  refine ⟨_, putData_eq hc hi hlen hne, rfl, rfl, rfl, ?_, fun j hj hji bs hbs => ?_⟩
  · rw [getData_eq hc' hi, ← hlen]
    exact read_write_self _ _ _
  · rw [getData_eq hc hj] at hbs
    rw [getData_eq hc' hj]
    refine read_write_disjoint hbs ?_
    rcases Nat.lt_or_gt_of_ne hji with hlt | hgt
    · exact Or.inl (spanSum_add_le_of_lt len hlt)
    · exact Or.inr (hlen ▸ spanSum_add_le_of_lt len hgt)

theorem putData_length_mismatch (hc : Consistent s len L) (hi : i < L) {data : List UInt8}
    (hlen : data.length ≠ len i) (hne : data ≠ []) :
    s.putData (UInt64.ofNat i) data [] =
      .error (.message ("length  `" ++ toString (len i) ++ " != " ++ toString data.length ++ "`")) := by
  have hend := hc.end_lt hi
  rw [Storage.putData, if_neg (by rw [List.isEmpty_iff]; exact hne), dataOffset_eq hc hi [], ok_bind]
  simp only [findNode, List.find?_nil, Option.map_none', Option.getD_none, sub_ofNat_add hend,
    rangeCount_ofNat hend, if_pos (Ne.symm hlen)]
  rfl

end Blocks

-- the second block of the two-block tree written with three bytes
theorem putData_getData_second_block :
    ∃ s', twoBlockTree.putData (UInt64.ofNat 1) [7, 8, 9] [] = .ok s' ∧ s'.tree = twoBlockTree.tree ∧
      s'.bitfield = twoBlockTree.bitfield ∧ s'.oplog = twoBlockTree.oplog ∧
      s'.getData (UInt64.ofNat 1) = .ok [7, 8, 9] ∧
      ∀ j < 2, j ≠ 1 → ∀ bs, twoBlockTree.getData (UInt64.ofNat j) = .ok bs →
        s'.getData (UInt64.ofNat j) = .ok bs :=
  putData_getData twoBlockTree_consistent (by decide) [7, 8, 9] rfl (by decide)

theorem putData_length_mismatch_one_byte :
    twoBlockTree.putData (UInt64.ofNat 1) [7] [] =
      .error (.message ("length  `" ++ toString (twoBlockLengths 1) ++ " != " ++
        toString [(7 : UInt8)].length ++ "`")) :=
  putData_length_mismatch twoBlockTree_consistent (by decide) (by decide) (by decide)

-- With entries of size 0 every read succeeds, at offset 32, and the loop never stops.
theorem bitfieldLoop_zero (seg : List UInt8) (hseg : 32 ≤ seg.length) :
    ∀ (fuel : Nat) (idx : UInt64) (acc : List UInt8), bitfieldLoop seg 0 fuel idx acc = none := by
  intro fuel
  induction fuel with
  | zero => intro _ _; rfl
  | succ fuel ih =>
    intro idx acc
    rw [bitfieldLoop, mul_zero, add_zero, HEADER_OFFSET_toNat, read_of_le (by simpa using hseg)]
    exact ih _ _

theorem readBitfield_zero_entry_size (s : Storage) (fuel : Nat) :
    s.readBitfield (fun _ => .ok ⟨0⟩) fuel =
      if s.bitfield.length < 32 then some (.error (.message "read bitfield header")) else none := by
  unfold Storage.readBitfield
  by_cases h : s.bitfield.length < 32
  · rw [read_of_lt (by simpa using h), if_pos h]
  · rw [read_of_le (by omega), if_neg h]
    exact congrArg (Option.map _) (bitfieldLoop_zero _ (by omega) fuel 0 [])

-- entry `idx` of size `e` starts at byte `32 + idx * e` while the entry ends below `2^64`
theorem entryOffset_toNat {e idx : Nat} (h : 32 + idx * e + e < 2 ^ 64) (hidx : idx < 2 ^ 64) :
    (HEADER_OFFSET + UInt64.ofNat idx * UInt64.ofNat e).toNat = 32 + idx * e := by
  simp (disch := omega) only [UInt64.toNat_add, UInt64.toNat_mul, UInt64.size_eq, UInt64.toNat_ofNat_mod,
    HEADER_OFFSET_toNat, Nat.mod_eq_of_lt]

-- one turn of the loop that reads a whole entry, and the turn that stops
theorem bitfieldLoop_read {seg : List UInt8} {e idx : Nat} (fuel : Nat) (acc : List UInt8)
    (h : 32 + idx * e + e ≤ seg.length) (hfit : seg.length < 2 ^ 64) (hidx : idx + 1 < 2 ^ 64) :
    bitfieldLoop seg (UInt64.ofNat e) (fuel + 1) (UInt64.ofNat idx) acc =
      bitfieldLoop seg (UInt64.ofNat e) fuel (UInt64.ofNat (idx + 1))
        (acc ++ (seg.drop (32 + idx * e)).take e) := by
  simp only [bitfieldLoop, entryOffset_toNat (show 32 + idx * e + e < 2 ^ 64 by omega) (by omega),
    UInt64.toNat_ofNat_mod, Nat.mod_eq_of_lt (show e < 2 ^ 64 by omega), read_of_le h,
    UInt64.ofNat_add, UInt64.ofNat_one]

theorem bitfieldLoop_stop {seg : List UInt8} {e idx : Nat} (fuel : Nat) (acc : List UInt8)
    (h : seg.length < 32 + idx * e + e) (hfit : 32 + idx * e + e < 2 ^ 64) (hidx : idx < 2 ^ 64) :
    bitfieldLoop seg (UInt64.ofNat e) (fuel + 1) (UInt64.ofNat idx) acc = some acc := by
  simp only [bitfieldLoop, entryOffset_toNat hfit hidx, UInt64.toNat_ofNat_mod,
    Nat.mod_eq_of_lt (show e < 2 ^ 64 by omega), read_of_lt h]

-- With `r` complete entries left after entry `idx`, the loop reads them, then stops at the first
-- read that runs past the end.
theorem bitfieldLoop_eq (seg : List UInt8) {e : Nat} (he : 0 < e) (hseg : 32 ≤ seg.length)
    (hfit : seg.length + e < 2 ^ 64) :
    ∀ (r fuel idx : Nat) (acc : List UInt8), idx + r = (seg.length - 32) / e → r < fuel →
      bitfieldLoop seg (UInt64.ofNat e) fuel (UInt64.ofNat idx) acc =
        some (acc ++ (seg.drop (32 + idx * e)).take (r * e)) := by
  have hk : (seg.length - 32) / e * e ≤ seg.length - 32 := Nat.div_mul_le_self _ _
  have hk' : seg.length - 32 < (seg.length - 32) / e * e + e := Nat.lt_div_mul_add he
  have hdiv : (seg.length - 32) / e ≤ seg.length - 32 := Nat.div_le_self _ _
  intro r
  induction r with
  | zero =>
    intro fuel idx acc hidx hfuel
    obtain ⟨fuel, rfl⟩ : ∃ f, fuel = f + 1 := ⟨fuel - 1, by omega⟩
    rw [Nat.add_zero] at hidx
    subst hidx
    rw [bitfieldLoop_stop fuel acc (by omega) (by omega) (by omega)]
    simp
  | succ r ih =>
    intro fuel idx acc hidx hfuel
    obtain ⟨fuel, rfl⟩ : ∃ f, fuel = f + 1 := ⟨fuel - 1, by omega⟩
    have hie : (idx + 1) * e ≤ (seg.length - 32) / e * e := Nat.mul_le_mul_right e (by omega)
    rw [Nat.succ_mul] at hie
    rw [bitfieldLoop_read fuel acc (by omega) (by omega) (by omega), ih fuel (idx + 1) _ (by omega) (by omega), List.append_assoc, Nat.succ_mul r e,
      Nat.add_comm (r * e), List.take_add, List.drop_drop, Nat.succ_mul idx e, Nat.add_assoc]

-- the header's entry size, as `as u64` widens it
theorem entrySize_toUInt64 (header : SleepHeader) :
    header.entry_size.toUInt64 = UInt64.ofNat header.entry_size.toNat :=
  UInt64.toNat.inj (by
    rw [UInt64.toNat_ofNat_mod,
      Nat.mod_eq_of_lt (lt_of_lt_of_le (UInt16.toNat_lt_size _) (by decide))]
    rfl)

-- Once the header parses, `read_bitfield` is the loop from entry 0 with the header's entry size.
theorem readBitfield_of_parse {fromVec : List UInt8 → Except String SleepHeader} {s : Storage}
    {header : SleepHeader} (hseg : 32 ≤ s.bitfield.length)
    (hparse : fromVec (s.bitfield.take 32) = .ok header) (fuel : Nat) :
    s.readBitfield fromVec fuel =
      (bitfieldLoop s.bitfield (UInt64.ofNat header.entry_size.toNat) fuel 0 []).map .ok := by
  unfold Storage.readBitfield
  rw [read_of_le hseg]
  simp only [List.drop_zero, hparse, entrySize_toUInt64]

theorem readBitfield_complete_entries (fromVec : List UInt8 → Except String SleepHeader)
    (s : Storage) (header : SleepHeader) (hparse : fromVec (s.bitfield.take 32) = .ok header)
    (he : 0 < header.entry_size.toNat) (hseg : 32 ≤ s.bitfield.length)
    (hfit : s.bitfield.length + header.entry_size.toNat < 2 ^ 64) (fuel : Nat)
    (hfuel : (s.bitfield.length - 32) / header.entry_size.toNat < fuel) :
    s.readBitfield fromVec fuel = some (.ok ((s.bitfield.drop 32).take
      ((s.bitfield.length - 32) / header.entry_size.toNat * header.entry_size.toNat))) := by
  have hloop := bitfieldLoop_eq s.bitfield he hseg hfit _ fuel 0 [] (Nat.zero_add _) hfuel
  simp only [Nat.zero_mul, Nat.add_zero, List.nil_append] at hloop
  rw [readBitfield_of_parse hseg hparse]
  exact congrArg (Option.map _) hloop

-- a bitfield of 10 bytes after its header: two whole entries of 4 bytes, and 2 left over
def shortBitfield : Storage := ⟨[], [], List.replicate 42 1, []⟩

theorem readBitfield_two_entries :
    0 < (4 : UInt16).toNat ∧ 32 ≤ shortBitfield.bitfield.length ∧
    shortBitfield.bitfield.length + 4 < 2 ^ 64 ∧ (shortBitfield.bitfield.length - 32) / 4 < 3 ∧
    shortBitfield.readBitfield (fun _ => .ok ⟨4⟩) 3 = some (.ok (List.replicate 8 1)) :=
  ⟨by decide, by decide, by decide, by decide,
    readBitfield_complete_entries _ shortBitfield ⟨4⟩ rfl (by decide) (by decide) (by decide) 3
      (by decide)⟩

theorem putBitfield_bitfield (s : Storage) {offset : UInt64} (data : List UInt8)
    (h : 32 + offset.toNat < 2 ^ 64) :
    (s.putBitfield offset data).bitfield = write s.bitfield (32 + offset.toNat) data := by
  rw [Storage.putBitfield, UInt64.toNat_add, UInt64.size_eq, HEADER_OFFSET_toNat, Nat.mod_eq_of_lt h]

-- Bytes written with `put_bitfield` inside the complete entries come back from `read_bitfield`
-- at their offset: the write leaves the header, so it still parses.
theorem putBitfield_readBitfield (fromVec : List UInt8 → Except String SleepHeader)
    (s : Storage) (header : SleepHeader) (hparse : fromVec (s.bitfield.take 32) = .ok header)
    (he : 0 < header.entry_size.toNat) (hseg : 32 ≤ s.bitfield.length) (offset : UInt64)
    (data : List UInt8) (hfit : s.bitfield.length + header.entry_size.toNat < 2 ^ 64)
    (hfit' : 32 + offset.toNat + data.length + header.entry_size.toNat < 2 ^ 64)
    (hwhole : offset.toNat + data.length ≤ ((s.putBitfield offset data).bitfield.length - 32) /
      header.entry_size.toNat * header.entry_size.toNat)
    (fuel : Nat)
    (hfuel : ((s.putBitfield offset data).bitfield.length - 32) / header.entry_size.toNat < fuel) :
    ∃ bits, (s.putBitfield offset data).readBitfield fromVec fuel = some (.ok bits) ∧
      (bits.drop offset.toNat).take data.length = data := by
  have hbits := putBitfield_bitfield s data (show 32 + offset.toNat < 2 ^ 64 by omega)
  have hlen := length_write s.bitfield data (32 + offset.toNat)
  have hseg' : 32 ≤ (s.putBitfield offset data).bitfield.length := by rw [hbits, hlen]; omega
  have hhead : read (s.putBitfield offset data).bitfield 0 32 = .ok ((s.bitfield.drop 0).take 32) := by
    rw [hbits]
    exact read_write_disjoint (read_of_le (by omega)) (Or.inl (by omega))
  rw [read_of_le hseg', List.drop_zero, List.drop_zero] at hhead
  have hparse' : fromVec ((s.putBitfield offset data).bitfield.take 32) = .ok header := by
    rw [Except.ok.inj hhead]
    exact hparse
  have hloop := bitfieldLoop_eq _ he hseg' (by rw [hbits, hlen]; omega) _ fuel 0 [] (Nat.zero_add _)
    hfuel
  simp only [Nat.zero_mul, Nat.add_zero, List.nil_append] at hloop
  refine ⟨_, (readBitfield_of_parse hseg' hparse' fuel).trans (congrArg (Option.map _) hloop), ?_⟩
  have hread := read_write_self s.bitfield data (32 + offset.toNat)
  rw [← hbits, read_of_le (by rw [hbits, hlen]; omega)] at hread
  rw [List.drop_take, List.drop_drop, List.take_take, Nat.min_eq_left (by omega)]
  exact Except.ok.inj hread

-- four bytes written over the first entry of the short bitfield
theorem putBitfield_readBitfield_first_entry :
    ∃ bits, (shortBitfield.putBitfield 0 [9, 9, 9, 9]).readBitfield (fun _ => .ok ⟨4⟩) 3 =
      some (.ok bits) ∧ (bits.drop 0).take 4 = [9, 9, 9, 9] :=
  putBitfield_readBitfield _ shortBitfield ⟨4⟩ rfl (by decide) (by decide) 0 [9, 9, 9, 9]
    (by decide) (by decide) (by decide) 3 (by decide)

theorem new_overwrites_oplog (tree data oplog : List UInt8) (b : UInt8)
    (create_bitfield create_tree : List UInt8) :
    (Storage.new ⟨tree, data, [], b :: oplog⟩ false create_bitfield create_tree).oplog =
      0 :: oplog := by
  simp [Storage.new, write, writeAt, apply_ite Storage.oplog]

theorem new_tree (opened : Storage) (overwrite : Bool) (create_bitfield create_tree : List UInt8) :
    (Storage.new opened overwrite create_bitfield create_tree).tree =
      if overwrite || opened.tree.length == 0 then write opened.tree 0 create_tree else opened.tree := by
  unfold Storage.new
  dsimp only
  split_ifs <;> rfl

theorem new_data (opened : Storage) (overwrite : Bool) (create_bitfield create_tree : List UInt8) :
    (Storage.new opened overwrite create_bitfield create_tree).data = opened.data := by
  unfold Storage.new
  dsimp only
  split_ifs <;> rfl

-- Even with `overwrite`, `Storage::new` rewrites only the headers: the data segment and every
-- node record past the tree's header read as before.
theorem new_keeps_node_records (opened : Storage) (overwrite : Bool)
    (create_bitfield create_tree : List UInt8) (htree : create_tree.length ≤ 32) :
    (Storage.new opened overwrite create_bitfield create_tree).data = opened.data ∧
      ∀ i, InRange i → (Storage.new opened overwrite create_bitfield create_tree).getNode i =
        opened.getNode i := by
  refine ⟨new_data .., fun i hi => ?_⟩
  simp only [Storage.getNode, new_tree]
  split
  · rw [read_write_above _ _ (by rw [recordOffset_toNat hi]; omega) (by decide)]
  · rfl

theorem new_keeps_two_block_tree :
    (List.replicate 32 (0 : UInt8)).length ≤ 32 ∧
      (Storage.new twoBlockTree true [] (List.replicate 32 0)).data = twoBlockTree.data ∧
      ∀ i, InRange i → (Storage.new twoBlockTree true [] (List.replicate 32 0)).getNode i =
        twoBlockTree.getNode i :=
  ⟨by simp, new_keeps_node_records twoBlockTree true [] (List.replicate 32 0) (by simp)⟩

theorem getNode_short {s : Storage} (h : s.tree.length < 40) (i : UInt64) :
    s.getNode i = .error .backend := by
  simp only [Storage.getNode,
    read_of_lt (show s.tree.length < (HEADER_OFFSET + 40 * i).toNat + 40 by omega), error_bind]

-- With no node record readable, `data_offset` fails before it reads any data.
theorem dataOffset_of_getNode {s : Storage} (h : ∀ i, s.getNode i = .error .backend)
    (index : UInt64) : s.dataOffset index [] = .error .backend := by
  simp only [Storage.dataOffset]
  split
  · simp only [Storage.leafLength, findNode, List.find?_nil, h, error_bind]
  · rename_i hpend
    cases hr : fullRoots (treeIndex index) with
    | nil => simp only [hr, List.length_nil, UInt64.ofNat_zero, not_true_eq_false] at hpend
    | cons root roots => simp only [Storage.dataOffsetLoop, h, error_bind, pure_bind]

-- A tree segment shorter than a node record holds no readable block.
theorem getData_of_short_tree {s : Storage} (h : s.tree.length < 40) (index : UInt64) :
    s.getData index = .error .backend := by
  simp only [Storage.getData, dataOffset_of_getNode (getNode_short h), error_bind]

theorem newMemory_tree (create_bitfield create_tree : List UInt8) :
    (newMemory create_bitfield create_tree).tree = create_tree := by
  simp only [newMemory, new_tree, List.length_nil, beq_self_eq_true, Bool.or_self, if_true, write_nil]

-- A fresh in-memory storage holds no block: whatever `create_tree` gives as long as it is
-- shorter than a node record, `get_data` fails for every index.
theorem newMemory_getData (create_bitfield create_tree : List UInt8) (htree : create_tree.length < 40)
    (index : UInt64) : (newMemory create_bitfield create_tree).getData index = .error .backend :=
  getData_of_short_tree (by rw [newMemory_tree]; exact htree) index

theorem newMemory_getData_header :
    (List.replicate 32 (0 : UInt8)).length < 40 ∧
      (newMemory [] (List.replicate 32 0)).getData 0 = .error .backend :=
  ⟨by simp, newMemory_getData [] (List.replicate 32 0) (by simp) 0⟩

end GnostrCore.Storage
