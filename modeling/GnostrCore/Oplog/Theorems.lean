import GnostrCore.Oplog.Header

namespace GnostrCore.Oplog

open GnostrCore.Encoding hiding encodeU64 decodeU64 encodeUsize decodeUsize encodeBytes decodeBytes
  put get

def HeaderTypes.wire (x : HeaderTypes) : List UInt8 := x.tree.wire ++ (x.bitfield.wire ++ x.signer.wire)

def HeaderTree.wire (x : HeaderTree) : List UInt8 := varint x.fork.toNat ++ varint x.length.toNat

-- a missing secret key is written as the empty `bytes`, a single 0
def secretWire : Option SecretKey → List UInt8
  | some k => bytesWire k.bytes
  | none => [0]

def HeaderSigner.wire (x : HeaderSigner) : List UInt8 :=
  bytesWire x.public_key.bytes ++ secretWire x.secret_key

def HeaderHints.wire (x : HeaderHints) : List UInt8 := stringsWire x.reorgs

-- the header after its version byte
def Header.body (h : Header) : List UInt8 :=
  h.types.wire ++ (h.tree.wire ++ (h.signer.wire ++ (h.hints.wire ++ varint h.contiguous_length.toNat)))

theorem preencodeHeaderTypes_eq (x : HeaderTypes) :
    preencodeHeaderTypes x = addEnd x.wire.length := by
  simp only [preencodeHeaderTypes, preencodeString_eq, addEnd_add, HeaderTypes.wire,
    List.length_append, Nat.add_assoc]

theorem encodeHeaderTypes_eq (x : HeaderTypes) :
    encodeHeaderTypes x = putOr outOfBounds x.wire := by
  simp only [encodeHeaderTypes, encodeString_eq, putOr_append, HeaderTypes.wire]

theorem decodeHeaderTypes_of_holds {buf : List UInt8} {st : State} {x : HeaderTypes}
    (h : Holds buf st.start x.wire) :
    (decodeHeaderTypes buf).run st = .ok (x, st.advance x.wire.length) := by
  obtain ⟨h1, h2⟩ := holds_advance.mp h
  obtain ⟨h2, h3⟩ := holds_advance.mp h2
  simp only [decodeHeaderTypes, StateT.run_bind, decodeString_of_holds h1, ok_bind,
    decodeString_of_holds h2, decodeString_of_holds h3]
  simp only [State.advance_advance, HeaderTypes.wire, List.length_append, Nat.add_assoc]
  rfl

theorem preencodeHeaderTree_eq (x : HeaderTree) :
    preencodeHeaderTree x = addEnd x.wire.length := by
  simp only [preencodeHeaderTree, preencodeU64, addEnd_add, HeaderTree.wire, List.length_append,
    length_varint]

theorem encodeHeaderTree_eq (x : HeaderTree) : encodeHeaderTree x = putOr outOfBounds x.wire := by
  simp only [encodeHeaderTree, encodeU64, putOr_append, HeaderTree.wire]

theorem decodeHeaderTree_of_holds {buf : List UInt8} {st : State} {x : HeaderTree}
    (h : Holds buf st.start x.wire) :
    (decodeHeaderTree buf).run st = .ok (x, st.advance x.wire.length) := by
  obtain ⟨h1, h2⟩ := holds_advance.mp h
  simp only [decodeHeaderTree, StateT.run_bind, decodeU64_of_holds h1, ok_bind,
    decodeU64_of_holds h2]
  simp only [State.advance_advance, HeaderTree.wire, List.length_append]
  rfl

theorem preencodeHeaderSigner_eq (x : HeaderSigner) :
    preencodeHeaderSigner x = addEnd x.wire.length := by
  rcases x with ⟨pk, _ | sk⟩ <;>
    simp only [preencodeHeaderSigner, preencodeBytes_eq, addEnd_add, HeaderSigner.wire, secretWire,
      List.length_append, List.length_singleton]

theorem encodeHeaderSigner_eq (x : HeaderSigner) :
    encodeHeaderSigner x = putOr outOfBounds x.wire := by
  rcases x with ⟨pk, _ | sk⟩ <;>
    simp only [encodeHeaderSigner, encodeBytes, encodeBytesOr_eq, setByteAtStart_skip, putOr_append,
      HeaderSigner.wire, secretWire]

theorem decodeHeaderSigner_of_holds {buf : List UInt8} {st : State} {x : HeaderSigner}
    (h : Holds buf st.start x.wire) :
    (decodeHeaderSigner buf).run st = .ok (x, st.advance x.wire.length) := by
  obtain ⟨h1, h2⟩ := holds_advance.mp h
  rcases x with ⟨pk, _ | sk⟩
  · have h2 : Holds buf _ (bytesWire ⟨[], Nat.zero_le _⟩) := h2
    simp only [decodeHeaderSigner, StateT.run_bind, decodeBytes_of_holds h1, ok_bind,
      decodeBytes_of_holds h2]
    simp [Vec.length, PublicKey.fromBytes_bytes, unwrap, HeaderSigner.wire, secretWire, State.advance_advance]
    rfl
  · have hsk : sk.bytes.length ≠ 0 := by rw [sk.length_eq]; decide
    simp only [decodeHeaderSigner, StateT.run_bind, decodeBytes_of_holds h1, ok_bind,
      decodeBytes_of_holds h2, if_neg hsk]
    simp [SecretKey.fromBytes_bytes, PublicKey.fromBytes_bytes, unwrap, HeaderSigner.wire, secretWire, State.advance_advance]
    rfl

theorem preencodeHeaderHints_eq (x : HeaderHints) :
    preencodeHeaderHints x = addEnd x.wire.length :=
  preencodeStrings_eq x.reorgs

theorem encodeHeaderHints_eq (x : HeaderHints) :
    encodeHeaderHints x = putOr outOfBounds x.wire :=
  encodeStrings_eq x.reorgs

theorem decodeHeaderHints_of_holds {buf : List UInt8} {st : State} {x : HeaderHints}
    (h : Holds buf st.start x.wire) :
    (decodeHeaderHints buf).run st = .ok (x, st.advance x.wire.length) := by
  simp only [decodeHeaderHints, StateT.run_bind, decodeStrings_of_holds h, ok_bind]
  rfl

-- `self.start += 1`, then the fields counted: the version byte moves the cursor and is not
-- counted
theorem preencodeHeader_eq (h : Header) :
    preencodeHeader h = (do addStart 1; addEnd h.body.length) := by
  simp only [preencodeHeader, preencodeHeaderTypes_eq, preencodeHeaderTree_eq,
    preencodeHeaderSigner_eq, preencodeHeaderHints_eq, preencodeU64, addEnd_add, Header.body,
    List.length_append, length_varint, Nat.add_assoc]

-- `buffer[0] = 0` wherever the cursor stands, then the fields from one byte past it
theorem encodeHeader_eq (h : Header) :
    encodeHeader h = (do setByte 0 0; skip 1; putOr outOfBounds h.body) := by
  simp only [encodeHeader, encodeHeaderTypes_eq, encodeHeaderTree_eq, encodeHeaderSigner_eq,
    encodeHeaderHints_eq, encodeU64, putOr_append, Header.body]

theorem preencodeHeader_run (h : Header) (st : State) :
    (preencodeHeader h).run st =
      .ok ((), { start := st.start + 1, «end» := st.end + h.body.length }) := by
  rw [preencodeHeader_eq, StateT.run_bind, addStart_run, ok_bind, addEnd_run]
  rfl

theorem encodeHeader_run (h : Header) {st : State} {buf : List UInt8} (h0 : 0 < buf.length)
    (hlen : st.start + 1 + h.body.length ≤ buf.length) :
    (encodeHeader h).run (st, buf) =
      .ok ((), (st.advance (1 + h.body.length), writeAt (buf.set 0 0) (st.start + 1) h.body)) := by
  have hlen' : (st.advance 1).start + h.body.length ≤ (buf.set 0 0).length := by
    rw [List.length_set, State.advance_start]; exact hlen
  rw [encodeHeader_eq, StateT.run_bind, setByte_run 0 st h0, ok_bind, StateT.run_bind, skip_run,
    ok_bind, putOr_run hlen', State.advance_advance, State.advance_start]

theorem decodeHeader_of_holds {buf : List UInt8} {st : State} {h : Header}
    (hh : Holds buf st.start (0 :: h.body)) :
    (decodeHeader buf).run st = .ok (h, st.advance (1 + h.body.length)) := by
  have hv : Holds buf st.start (varint 0 ++ h.body) := hh
  obtain ⟨h0, h1⟩ := holds_advance.mp hv
  obtain ⟨h1, h2⟩ := holds_advance.mp h1
  obtain ⟨h2, h3⟩ := holds_advance.mp h2
  obtain ⟨h3, h4⟩ := holds_advance.mp h3
  obtain ⟨h4, h5⟩ := holds_advance.mp h4
  simp only [decodeHeader, decodeUsize, StateT.run_bind, decodeVarintOr_of_holds (by decide) h0,
    ok_bind]
  simp only [ne_eq, not_true_eq_false, if_false, pure_bind, StateT.run_bind,
    decodeHeaderTypes_of_holds h1, ok_bind, decodeHeaderTree_of_holds h2,
    decodeHeaderSigner_of_holds h3, decodeHeaderHints_of_holds h4, decodeU64_of_holds h5]
  simp only [State.advance_advance, Header.body, List.length_append, length_varint, Nat.add_assoc]
  rfl

theorem decodeHeader_of_version {buf : List UInt8} {st : State} {v : Nat} (hv : v ≠ 0)
    (hv64 : v < 2 ^ 64) (h : Holds buf st.start (varint v)) :
    (decodeHeader buf).run st = .error (.panic ("Unknown oplog version " ++ toString v)) := by
  simp only [decodeHeader, decodeUsize, StateT.run_bind, decodeVarintOr_of_holds hv64 h, ok_bind,
    ne_eq, hv, not_false_eq_true, if_true]
  rfl

-- From any cursor past 0, `encode` writes the version byte at index 0, outside the header, and
-- leaves the byte at the cursor as it was; `decode` then reads that old byte as the version.
theorem header_version_written_at_zero (h : Header) (x c : UInt8) (pre rest : List UInt8) (e : Nat) :
    (encodeHeader h).run (⟨pre.length + 1, e⟩, x :: pre ++ 1 :: List.replicate h.body.length c ++ rest) =
      .ok ((), (⟨pre.length + 2 + h.body.length, e⟩, 0 :: pre ++ 1 :: h.body ++ rest)) ∧
    (decodeHeader (0 :: pre ++ 1 :: h.body ++ rest)).run ⟨pre.length + 1, e⟩ =
      .error (.panic "Unknown oplog version 1") := by
  constructor
  · have hlen : pre.length + 1 + 1 + h.body.length ≤
        (x :: pre ++ 1 :: List.replicate h.body.length c ++ rest).length := by
      simp only [List.length_append, List.length_cons, List.length_replicate]; omega
    have hw := writeAt_middle (0 :: pre ++ [1]) (List.replicate h.body.length c) h.body rest
      (List.length_replicate _ _)
    rw [@encodeHeader_run h ⟨pre.length + 1, e⟩ _ (by omega) hlen]
    simp only [List.cons_append, List.append_assoc, List.singleton_append, List.set_cons_zero,
      List.nil_append, Nat.zero_add, List.length_append, List.length_cons, List.length_nil,
      List.length_singleton] at hw ⊢
    have h2 : pre.length + 1 + (1 + h.body.length) = pre.length + 2 + h.body.length := by omega
    rw [hw]
    simp only [State.advance, h2]
  · have hh : Holds (0 :: pre ++ 1 :: h.body ++ rest) (pre.length + 1) (varint 1) := by
      rw [List.append_cons (0 :: pre), List.append_assoc]
      exact holds_middle (0 :: pre) [1] _
    exact decodeHeader_of_version (by decide : (1 : Nat) ≠ 0) (by decide) hh

-- `preencode` moves `start` by one and counts only the fields, while `encode` writes the version
-- byte and the fields: from a fresh `State`, the buffer `preencode` sizes is too short.
theorem header_preencode_miscounts (h : Header) (s e : Nat) :
    (preencodeHeader h).run ⟨s, e⟩ = .ok ((), ⟨s + 1, e + h.body.length⟩) ∧
    (∃ buf', (encodeHeader h).run (⟨s, e⟩, List.replicate (s + 1 + h.body.length) 0) =
      .ok ((), (⟨s + 1 + h.body.length, e⟩, buf'))) ∧
    (encodeHeader h).run (⟨1, h.body.length⟩, List.replicate h.body.length 0) = .error outOfBounds := by
  refine ⟨preencodeHeader_run h _,
    ⟨writeAt ((List.replicate (s + 1 + h.body.length) 0).set 0 0) (s + 1) h.body, ?_⟩, ?_⟩
  · rw [@encodeHeader_run h ⟨s, e⟩ _ (by simp) (by simp)]
    simp only [State.advance, Nat.add_assoc]
  · rw [encodeHeader_eq, StateT.run_bind]
    rcases Nat.eq_zero_or_pos h.body.length with hz | hpos
    · simp only [hz, List.replicate, StateT.run, setByte, List.length_nil, Nat.lt_irrefl, if_false]
      rfl
    · rw [setByte_run 0 _ (by simpa using hpos), ok_bind, StateT.run_bind, skip_run, ok_bind,
        putOr_run_short (by simp)]

-- From cursor 0 the version byte lands where it belongs, and the header comes back.
theorem header_round_trip_from_zero (h : Header) (buf : List UInt8) (e e' : Nat)
    (hlen : 1 + h.body.length ≤ buf.length) :
    ∃ buf', (encodeHeader h).run (⟨0, e⟩, buf) = .ok ((), (⟨1 + h.body.length, e⟩, buf')) ∧
      Frame buf buf' 0 (1 + h.body.length) ∧
      (decodeHeader buf').run ⟨0, e'⟩ = .ok (h, ⟨1 + h.body.length, e'⟩) := by
  have h0 : 0 < buf.length := by omega
  have hw : 1 + h.body.length ≤ (buf.set 0 0).length := by rw [List.length_set]; exact hlen
  have hframe := frame_writeAt hw
  refine ⟨_, ?_, (frame_set buf 0 0).trans hframe (Nat.zero_le 1) (Nat.le_add_right 1 _), ?_⟩
  · rw [@encodeHeader_run h ⟨0, e⟩ _ h0 (by simpa using hlen)]
    simp only [State.advance, Nat.zero_add]
  · have hh : Holds (writeAt (buf.set 0 0) 1 h.body) 0 (0 :: h.body) := by
      refine holds_cons.mpr ⟨?_, holds_writeAt hw⟩
      rw [hframe.2 0 (.inl Nat.zero_lt_one), List.getElem?_set_self h0]
    rw [@decodeHeader_of_holds _ ⟨0, e'⟩ _ hh]
    simp only [State.advance, Nat.zero_add]

-- `Header::new_from_keys` for the all-zero public key and no secret key
def zeroKeyHeader : Header := Header.newFromKeys ⟨⟨List.replicate 32 0, by decide⟩, rfl⟩ none

theorem header_round_trip_zero_key :
    1 + zeroKeyHeader.body.length ≤ (List.replicate (1 + zeroKeyHeader.body.length) 0).length ∧
    ∃ buf', (encodeHeader zeroKeyHeader).run
        (⟨0, 0⟩, List.replicate (1 + zeroKeyHeader.body.length) 0) =
          .ok ((), (⟨1 + zeroKeyHeader.body.length, 0⟩, buf')) ∧
      Frame (List.replicate (1 + zeroKeyHeader.body.length) 0) buf' 0
        (1 + zeroKeyHeader.body.length) ∧
      (decodeHeader buf').run ⟨0, 0⟩ = .ok (zeroKeyHeader, ⟨1 + zeroKeyHeader.body.length, 0⟩) :=
  ⟨by simp, header_round_trip_from_zero zeroKeyHeader _ 0 0 (by simp)⟩

end GnostrCore.Oplog
