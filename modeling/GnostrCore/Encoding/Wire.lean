import GnostrCore.Encoding.Messages

namespace GnostrCore.Encoding

-- The codecs of `encoding.rs` are sequences of the crate's primitives; here each one is shown to
-- count, write and read back one byte string, the value's compact form below.

def Node.wire (x : Node) : List UInt8 :=
  varint x.index.toNat ++ (varint x.length.toNat ++ x.hash.toList)

def nodesWire (v : Vec Node) : List UInt8 :=
  varint v.length ++ v.toList.flatMap Node.wire

-- every node hash is a 32-byte digest, as the `fixed_32` field requires
def HashesOk (v : Vec Node) : Prop := ∀ x ∈ v.toList, x.hash.length = 32

-- `preencode_fixed_32` counts 32 bytes whatever the hash holds.
theorem preencodeNode_eq {x : Node} (h : x.hash.length = 32) :
    preencodeNode x = addEnd x.wire.length := by
  simp only [Vec.length] at h
  simp only [preencodeNode, preencodeU64, preencodeFixed32, addEnd_add, Node.wire,
    List.length_append, length_varint, h, Nat.add_assoc]

theorem encodeNode_eq {x : Node} (h : x.hash.length = 32) : encodeNode x = put x.wire := by
  simp only [encodeNode, encodeU64, encodeFixed32_eq h, put_append, Node.wire]

theorem decodeNode_of_holds {buf : List UInt8} {st : State} {x : Node} (h32 : x.hash.length = 32)
    (h : Holds buf st.start x.wire) :
    (decodeNode buf).run st = .ok (x, st.advance x.wire.length) := by
  obtain ⟨h1, h2⟩ := holds_advance.mp h
  obtain ⟨h2, h3⟩ := holds_advance.mp h2
  simp only [decodeNode, StateT.run_bind, decodeU64_of_holds h1, ok_bind, decodeU64_of_holds h2,
    decodeFixed32_of_holds h32 h3]
  simp only [Vec.length] at h32
  simp only [State.advance_advance, Node.wire, List.length_append, h32, Nat.add_assoc]
  rfl

theorem preencodeNodes_eq {v : Vec Node} (hv : HashesOk v) :
    preencodeNodes v = addEnd (nodesWire v).length := by
  simp only [preencodeNodes, preencodeUsize,
    preencode_loop Node.wire preencodeNode v.toList fun x hx => preencodeNode_eq (hv x hx),
    nodesWire, List.length_append, length_varint, Vec.length]

theorem encodeNodes_eq {v : Vec Node} (hv : HashesOk v) : encodeNodes v = put (nodesWire v) := by
  simp only [encodeNodes, encodeUsize, put,
    encode_loop Node.wire encodeNode v.toList fun x hx => encodeNode_eq (hv x hx), nodesWire]

theorem decodeNodes_of_holds {buf : List UInt8} {st : State} {v : Vec Node} (hv : HashesOk v)
    (h : Holds buf st.start (nodesWire v)) :
    (decodeNodes buf).run st = .ok (v, st.advance (nodesWire v).length) := by
  obtain ⟨h1, h2⟩ := holds_advance.mp h
  have hn : v.length < 2 ^ 64 := lt_of_le_of_lt v.length_le (by decide)
  have hloop := decodeLoop_of_holds Node.wire v.toList
    (fun x hx _ hh => decodeNode_of_holds (hv x hx) hh) h2
  simp only [decodeNodes, StateT.run_bind, decodeUsize_of_holds hn h1, ok_bind]
  simp only [Vec.length] at hloop ⊢
  simp only [withCapacity_run v.length_le, hloop, ok_bind, State.advance_advance,
    List.length_append, nodesWire, Vec.length]
  rfl

def RequestBlock.wire (x : RequestBlock) : List UInt8 := varint x.index.toNat ++ varint x.nodes.toNat

def RequestSeek.wire (x : RequestSeek) : List UInt8 := varint x.bytes.toNat

def RequestUpgrade.wire (x : RequestUpgrade) : List UInt8 :=
  varint x.start.toNat ++ varint x.length.toNat

theorem preencodeRequestBlock_eq (x : RequestBlock) :
    preencodeRequestBlock x = addEnd x.wire.length := by
  simp only [preencodeRequestBlock, preencodeU64, addEnd_add, RequestBlock.wire,
    List.length_append, length_varint]

theorem encodeRequestBlock_eq (x : RequestBlock) : encodeRequestBlock x = put x.wire := by
  simp only [encodeRequestBlock, encodeU64, put_append, RequestBlock.wire]

theorem decodeRequestBlock_of_holds {buf : List UInt8} {st : State} {x : RequestBlock}
    (h : Holds buf st.start x.wire) :
    (decodeRequestBlock buf).run st = .ok (x, st.advance x.wire.length) := by
  obtain ⟨h1, h2⟩ := holds_advance.mp h
  simp only [decodeRequestBlock, StateT.run_bind, decodeU64_of_holds h1, ok_bind,
    decodeU64_of_holds h2]
  simp only [State.advance_advance, RequestBlock.wire, List.length_append]
  rfl

theorem preencodeRequestSeek_eq (x : RequestSeek) :
    preencodeRequestSeek x = addEnd x.wire.length := by
  simp only [preencodeRequestSeek, preencodeU64, RequestSeek.wire, length_varint]

theorem encodeRequestSeek_eq (x : RequestSeek) : encodeRequestSeek x = put x.wire := rfl

theorem decodeRequestSeek_of_holds {buf : List UInt8} {st : State} {x : RequestSeek}
    (h : Holds buf st.start x.wire) :
    (decodeRequestSeek buf).run st = .ok (x, st.advance x.wire.length) := by
  simp only [decodeRequestSeek, StateT.run_bind, decodeU64_of_holds h, ok_bind, RequestSeek.wire]
  rfl

theorem preencodeRequestUpgrade_eq (x : RequestUpgrade) :
    preencodeRequestUpgrade x = addEnd x.wire.length := by
  simp only [preencodeRequestUpgrade, preencodeU64, addEnd_add, RequestUpgrade.wire,
    List.length_append, length_varint]

theorem encodeRequestUpgrade_eq (x : RequestUpgrade) : encodeRequestUpgrade x = put x.wire := by
  simp only [encodeRequestUpgrade, encodeU64, put_append, RequestUpgrade.wire]

theorem decodeRequestUpgrade_of_holds {buf : List UInt8} {st : State} {x : RequestUpgrade}
    (h : Holds buf st.start x.wire) :
    (decodeRequestUpgrade buf).run st = .ok (x, st.advance x.wire.length) := by
  obtain ⟨h1, h2⟩ := holds_advance.mp h
  simp only [decodeRequestUpgrade, StateT.run_bind, decodeU64_of_holds h1, ok_bind,
    decodeU64_of_holds h2]
  simp only [State.advance_advance, RequestUpgrade.wire, List.length_append]
  rfl

def DataBlock.wire (x : DataBlock) : List UInt8 :=
  varint x.index.toNat ++ (bytesWire x.value ++ nodesWire x.nodes)

def DataHash.wire (x : DataHash) : List UInt8 := varint x.index.toNat ++ nodesWire x.nodes

def DataSeek.wire (x : DataSeek) : List UInt8 := varint x.bytes.toNat ++ nodesWire x.nodes

def DataUpgrade.wire (x : DataUpgrade) : List UInt8 :=
  varint x.start.toNat ++ (varint x.length.toNat ++ (nodesWire x.nodes ++
    (nodesWire x.additional_nodes ++ bytesWire x.signature)))

theorem preencodeDataBlock_eq {x : DataBlock} (hv : HashesOk x.nodes) :
    preencodeDataBlock x = addEnd x.wire.length := by
  simp only [preencodeDataBlock, preencodeU64, preencodeBytes_eq, preencodeNodes_eq hv,
    addEnd_add, DataBlock.wire, List.length_append, length_varint]

theorem encodeDataBlock_eq {x : DataBlock} (hv : HashesOk x.nodes) :
    encodeDataBlock x = put x.wire := by
  simp only [encodeDataBlock, encodeU64, encodeBytes_eq, encodeNodes_eq hv, put_append,
    DataBlock.wire]

theorem decodeDataBlock_of_holds {buf : List UInt8} {st : State} {x : DataBlock}
    (hv : HashesOk x.nodes) (h : Holds buf st.start x.wire) :
    (decodeDataBlock buf).run st = .ok (x, st.advance x.wire.length) := by
  obtain ⟨h1, h2⟩ := holds_advance.mp h
  obtain ⟨h2, h3⟩ := holds_advance.mp h2
  simp only [decodeDataBlock, StateT.run_bind, decodeU64_of_holds h1, ok_bind,
    decodeBytes_of_holds h2, decodeNodes_of_holds hv h3]
  simp only [State.advance_advance, DataBlock.wire, List.length_append, Nat.add_assoc]
  rfl

theorem preencodeDataHash_eq {x : DataHash} (hv : HashesOk x.nodes) :
    preencodeDataHash x = addEnd x.wire.length := by
  simp only [preencodeDataHash, preencodeU64, preencodeNodes_eq hv, addEnd_add, DataHash.wire,
    List.length_append, length_varint]

theorem encodeDataHash_eq {x : DataHash} (hv : HashesOk x.nodes) :
    encodeDataHash x = put x.wire := by
  simp only [encodeDataHash, encodeU64, encodeNodes_eq hv, put_append, DataHash.wire]

theorem decodeDataHash_of_holds {buf : List UInt8} {st : State} {x : DataHash}
    (hv : HashesOk x.nodes) (h : Holds buf st.start x.wire) :
    (decodeDataHash buf).run st = .ok (x, st.advance x.wire.length) := by
  obtain ⟨h1, h2⟩ := holds_advance.mp h
  simp only [decodeDataHash, StateT.run_bind, decodeU64_of_holds h1, ok_bind,
    decodeNodes_of_holds hv h2]
  simp only [State.advance_advance, DataHash.wire, List.length_append, Nat.add_assoc]
  rfl

theorem preencodeDataSeek_eq {x : DataSeek} (hv : HashesOk x.nodes) :
    preencodeDataSeek x = addEnd x.wire.length := by
  simp only [preencodeDataSeek, preencodeU64, preencodeNodes_eq hv, addEnd_add, DataSeek.wire,
    List.length_append, length_varint]

theorem encodeDataSeek_eq {x : DataSeek} (hv : HashesOk x.nodes) :
    encodeDataSeek x = put x.wire := by
  simp only [encodeDataSeek, encodeU64, encodeNodes_eq hv, put_append, DataSeek.wire]

theorem decodeDataSeek_of_holds {buf : List UInt8} {st : State} {x : DataSeek}
    (hv : HashesOk x.nodes) (h : Holds buf st.start x.wire) :
    (decodeDataSeek buf).run st = .ok (x, st.advance x.wire.length) := by
  obtain ⟨h1, h2⟩ := holds_advance.mp h
  simp only [decodeDataSeek, StateT.run_bind, decodeU64_of_holds h1, ok_bind,
    decodeNodes_of_holds hv h2]
  simp only [State.advance_advance, DataSeek.wire, List.length_append, Nat.add_assoc]
  rfl

theorem preencodeDataUpgrade_eq {x : DataUpgrade} (hv : HashesOk x.nodes)
    (ha : HashesOk x.additional_nodes) : preencodeDataUpgrade x = addEnd x.wire.length := by
  simp only [preencodeDataUpgrade, preencodeU64, preencodeNodes_eq hv, preencodeNodes_eq ha,
    preencodeBytes_eq, addEnd_add_bind, addEnd_add, DataUpgrade.wire, List.length_append,
    length_varint]

theorem encodeDataUpgrade_eq {x : DataUpgrade} (hv : HashesOk x.nodes)
    (ha : HashesOk x.additional_nodes) : encodeDataUpgrade x = put x.wire := by
  simp only [encodeDataUpgrade, encodeU64, encodeNodes_eq hv, encodeNodes_eq ha, encodeBytes_eq,
    put_append, DataUpgrade.wire]

theorem decodeDataUpgrade_of_holds {buf : List UInt8} {st : State} {x : DataUpgrade}
    (hv : HashesOk x.nodes) (ha : HashesOk x.additional_nodes) (h : Holds buf st.start x.wire) :
    (decodeDataUpgrade buf).run st = .ok (x, st.advance x.wire.length) := by
  obtain ⟨h1, h2⟩ := holds_advance.mp h
  obtain ⟨h2, h3⟩ := holds_advance.mp h2
  obtain ⟨h3, h4⟩ := holds_advance.mp h3
  obtain ⟨h4, h5⟩ := holds_advance.mp h4
  simp only [decodeDataUpgrade, StateT.run_bind, decodeU64_of_holds h1, ok_bind,
    decodeU64_of_holds h2, decodeNodes_of_holds hv h3, decodeNodes_of_holds ha h4,
    decodeBytes_of_holds h5]
  simp only [State.advance_advance, DataUpgrade.wire, List.length_append, Nat.add_assoc]
  rfl

end GnostrCore.Encoding
