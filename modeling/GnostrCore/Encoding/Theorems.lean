import GnostrCore.Encoding.Wire

namespace GnostrCore.Encoding

-- `CompactEncoding<T> for HypercoreState`: the three methods of one impl
structure CompactEncoding (α : Type) where
  preencode : α → Preencoder Unit
  encode : α → Encoder Unit
  decode : List UInt8 → Decoder α

def nodeEncoding : CompactEncoding Node := ⟨preencodeNode, encodeNode, decodeNode⟩
def nodesEncoding : CompactEncoding (Vec Node) := ⟨preencodeNodes, encodeNodes, decodeNodes⟩
def requestBlockEncoding : CompactEncoding RequestBlock :=
  ⟨preencodeRequestBlock, encodeRequestBlock, decodeRequestBlock⟩
def requestSeekEncoding : CompactEncoding RequestSeek :=
  ⟨preencodeRequestSeek, encodeRequestSeek, decodeRequestSeek⟩
def requestUpgradeEncoding : CompactEncoding RequestUpgrade :=
  ⟨preencodeRequestUpgrade, encodeRequestUpgrade, decodeRequestUpgrade⟩
def dataBlockEncoding : CompactEncoding DataBlock :=
  ⟨preencodeDataBlock, encodeDataBlock, decodeDataBlock⟩
def dataHashEncoding : CompactEncoding DataHash :=
  ⟨preencodeDataHash, encodeDataHash, decodeDataHash⟩
def dataSeekEncoding : CompactEncoding DataSeek :=
  ⟨preencodeDataSeek, encodeDataSeek, decodeDataSeek⟩
def dataUpgradeEncoding : CompactEncoding DataUpgrade :=
  ⟨preencodeDataUpgrade, encodeDataUpgrade, decodeDataUpgrade⟩

-- `preencode` as the crate runs it on its `usize` end. Each step of the pass is a checked add
-- (`addEndChecked`), and checked adds make one checked add of their sum (`addEndChecked_add`):
-- the pass is its count in naturals, then the one check on the end it reaches.
def CompactEncoding.preencodeChecked (c : CompactEncoding α) (x : α) : Preencoder Unit := do
  c.preencode x
  let st ← getThe State
  if st.end ≤ USIZE_MAX then pure () else throw .encoding

-- Whatever `encode` writes from cursor `s`, found at `s` of any buffer, decodes back to the
-- value and moves the cursor to the end of those bytes, whatever lies around them.
def RoundTrip (c : CompactEncoding α) (wf : α → Prop) : Prop :=
  ∀ x, wf x → ∀ st buf st' buf', (c.encode x).run (st, buf) = .ok ((), (st', buf')) →
    ∀ other e, Holds other st.start ((buf'.drop st.start).take (st'.start - st.start)) →
      (c.decode other).run ⟨st.start, e⟩ = .ok (x, ⟨st'.start, e⟩)

-- `preencode` counts exactly the bytes `encode` then writes, as long as the count fits the
-- `usize` end, and fails with an encoding error when it does not; `encode` writes no others.
def SizeAgreement (c : CompactEncoding α) (wf : α → Prop) : Prop :=
  ∀ x, wf x → ∃ n,
    (∀ s e, (c.preencodeChecked x).run ⟨s, e⟩ =
      if e + n ≤ USIZE_MAX then .ok ((), ⟨s, e + n⟩) else .error .encoding) ∧
    ∀ s buf e', s + n ≤ buf.length →
      ∃ buf', (c.encode x).run (⟨s, e'⟩, buf) = .ok ((), (⟨s + n, e'⟩, buf')) ∧ Frame buf buf' s (s + n)

-- A codec that counts, writes and reads back the one byte string `wire x` of each value.
structure Follows (c : CompactEncoding α) (wf : α → Prop) (wire : α → List UInt8) : Prop where
  preencode_eq : ∀ x, wf x → c.preencode x = addEnd (wire x).length
  encode_eq : ∀ x, wf x → c.encode x = put (wire x)
  decode_of_holds : ∀ x, wf x → ∀ buf st, Holds buf st.start (wire x) →
    (c.decode buf).run st = .ok (x, st.advance (wire x).length)

theorem Follows.roundTrip {c : CompactEncoding α} {wf : α → Prop} {wire : α → List UInt8}
    (hc : Follows c wf wire) : RoundTrip c wf := by
  intro x hx st buf st' buf' henc other e hother
  rw [hc.encode_eq x hx] at henc
  obtain ⟨hle, rfl, rfl⟩ := putOr_run_eq_ok henc
  have hw := (holds_writeAt hle).2
  simp only [State.advance_start, Nat.add_sub_cancel_left, hw] at hother
  exact hc.decode_of_holds x hx other ⟨st.start, e⟩ hother

-- The count and the check make the crate's one checked step over the value's compact form.
theorem Follows.preencodeChecked_eq {c : CompactEncoding α} {wf : α → Prop}
    {wire : α → List UInt8} (hc : Follows c wf wire) {x : α} (hx : wf x) :
    c.preencodeChecked x = addEndChecked (wire x).length := by
  funext st
  simp only [CompactEncoding.preencodeChecked, hc.preencode_eq x hx, addEnd, addEndChecked, bind,
    StateT.bind, modify, modifyGet, MonadStateOf.modifyGet, StateT.modifyGet, getThe,
    MonadStateOf.get, StateT.get, pure, StateT.pure, Except.pure, Except.bind]
  split <;> rfl

theorem Follows.sizeAgreement {c : CompactEncoding α} {wf : α → Prop} {wire : α → List UInt8}
    (hc : Follows c wf wire) : SizeAgreement c wf := by
  intro x hx
  refine ⟨(wire x).length, fun s e => by rw [hc.preencodeChecked_eq hx]; rfl, fun s buf e' hle => ?_⟩
  rw [hc.encode_eq x hx]
  exact ⟨_, @put_run _ _ ⟨s, e'⟩ hle, frame_writeAt hle⟩

-- the nine codecs of `encoding.rs`

theorem follows_node : Follows nodeEncoding (·.hash.length = 32) Node.wire :=
  ⟨fun _ h => preencodeNode_eq h, fun _ h => encodeNode_eq h,
    fun _ h _ _ hb => decodeNode_of_holds h hb⟩

theorem follows_nodes : Follows nodesEncoding HashesOk nodesWire :=
  ⟨fun _ h => preencodeNodes_eq h, fun _ h => encodeNodes_eq h,
    fun _ h _ _ hb => decodeNodes_of_holds h hb⟩

theorem follows_requestBlock : Follows requestBlockEncoding (fun _ => True) RequestBlock.wire :=
  ⟨fun x _ => preencodeRequestBlock_eq x, fun x _ => encodeRequestBlock_eq x,
    fun _ _ _ _ hb => decodeRequestBlock_of_holds hb⟩

theorem follows_requestSeek : Follows requestSeekEncoding (fun _ => True) RequestSeek.wire :=
  ⟨fun x _ => preencodeRequestSeek_eq x, fun x _ => encodeRequestSeek_eq x,
    fun _ _ _ _ hb => decodeRequestSeek_of_holds hb⟩

theorem follows_requestUpgrade :
    Follows requestUpgradeEncoding (fun _ => True) RequestUpgrade.wire :=
  ⟨fun x _ => preencodeRequestUpgrade_eq x, fun x _ => encodeRequestUpgrade_eq x,
    fun _ _ _ _ hb => decodeRequestUpgrade_of_holds hb⟩

theorem follows_dataBlock : Follows dataBlockEncoding (HashesOk ·.nodes) DataBlock.wire :=
  ⟨fun _ h => preencodeDataBlock_eq h, fun _ h => encodeDataBlock_eq h,
    fun _ h _ _ hb => decodeDataBlock_of_holds h hb⟩

theorem follows_dataHash : Follows dataHashEncoding (HashesOk ·.nodes) DataHash.wire :=
  ⟨fun _ h => preencodeDataHash_eq h, fun _ h => encodeDataHash_eq h,
    fun _ h _ _ hb => decodeDataHash_of_holds h hb⟩

theorem follows_dataSeek : Follows dataSeekEncoding (HashesOk ·.nodes) DataSeek.wire :=
  ⟨fun _ h => preencodeDataSeek_eq h, fun _ h => encodeDataSeek_eq h,
    fun _ h _ _ hb => decodeDataSeek_of_holds h hb⟩

theorem follows_dataUpgrade : Follows dataUpgradeEncoding
    (fun x => HashesOk x.nodes ∧ HashesOk x.additional_nodes) DataUpgrade.wire :=
  ⟨fun _ h => preencodeDataUpgrade_eq h.1 h.2, fun _ h => encodeDataUpgrade_eq h.1 h.2,
    fun _ h _ _ hb => decodeDataUpgrade_of_holds h.1 h.2 hb⟩

theorem wire_round_trip :
    RoundTrip nodeEncoding (·.hash.length = 32) ∧ RoundTrip nodesEncoding HashesOk ∧
    RoundTrip requestBlockEncoding (fun _ => True) ∧
    RoundTrip requestSeekEncoding (fun _ => True) ∧
    RoundTrip requestUpgradeEncoding (fun _ => True) ∧
    RoundTrip dataBlockEncoding (HashesOk ·.nodes) ∧
    RoundTrip dataHashEncoding (HashesOk ·.nodes) ∧
    RoundTrip dataSeekEncoding (HashesOk ·.nodes) ∧
    RoundTrip dataUpgradeEncoding (fun x => HashesOk x.nodes ∧ HashesOk x.additional_nodes) :=
  ⟨follows_node.roundTrip, follows_nodes.roundTrip, follows_requestBlock.roundTrip,
    follows_requestSeek.roundTrip, follows_requestUpgrade.roundTrip, follows_dataBlock.roundTrip,
    follows_dataHash.roundTrip, follows_dataSeek.roundTrip, follows_dataUpgrade.roundTrip⟩

theorem wire_preencode_matches_encode :
    SizeAgreement nodeEncoding (·.hash.length = 32) ∧ SizeAgreement nodesEncoding HashesOk ∧
    SizeAgreement requestBlockEncoding (fun _ => True) ∧
    SizeAgreement requestSeekEncoding (fun _ => True) ∧
    SizeAgreement requestUpgradeEncoding (fun _ => True) ∧
    SizeAgreement dataBlockEncoding (HashesOk ·.nodes) ∧
    SizeAgreement dataHashEncoding (HashesOk ·.nodes) ∧
    SizeAgreement dataSeekEncoding (HashesOk ·.nodes) ∧
    SizeAgreement dataUpgradeEncoding (fun x => HashesOk x.nodes ∧ HashesOk x.additional_nodes) :=
  ⟨follows_node.sizeAgreement, follows_nodes.sizeAgreement, follows_requestBlock.sizeAgreement,
    follows_requestSeek.sizeAgreement, follows_requestUpgrade.sizeAgreement,
    follows_dataBlock.sizeAgreement, follows_dataHash.sizeAgreement,
    follows_dataSeek.sizeAgreement, follows_dataUpgrade.sizeAgreement⟩

-- At an end of `usize::MAX` nothing more can be counted: even the one byte of a `RequestSeek`
-- overflows the end.
theorem preencode_overflows_usize_end :
    (requestSeekEncoding.preencodeChecked ⟨0⟩).run ⟨0, USIZE_MAX⟩ = .error .encoding := by
  rw [follows_requestSeek.preencodeChecked_eq trivial, addEndChecked_run, if_neg (by decide)]

-- How a decoder may end on any buffer, from a cursor inside it: with an error `err` allows, or
-- with a value and the cursor still inside the buffer.
def Contained (err : Error → Prop) (buf : List UInt8) (d : Decoder α) : Prop :=
  ∀ st : State, st.start ≤ buf.length → match d.run st with
    | .ok (_, st') => st'.start ≤ buf.length
    | .error e => err e

-- the errors of a decoder that reads a length and allocates for it: a short buffer, or a
-- length past what `Vec::with_capacity` accepts
def LengthError (e : Error) : Prop := e = .encoding ∨ e = .panic "capacity overflow"

section Contained

variable {err : Error → Prop} {buf : List UInt8}

theorem Contained.pure (a : α) : Contained err buf (pure a) :=
  fun _ h => h

theorem Contained.bind {d : Decoder α} {f : α → Decoder β} (hd : Contained err buf d)
    (hf : ∀ a, Contained err buf (f a)) : Contained err buf (d >>= f) := by
  intro st hst
  have h := hd st hst
  rw [StateT.run_bind]
  cases hr : d.run st with
  | error e => simpa only [hr, error_bind] using h
  | ok p => simpa only [hr, ok_bind] using hf p.1 p.2 (by simpa only [hr] using h)

theorem Contained.mono {err' : Error → Prop} {d : Decoder α} (hd : Contained err buf d)
    (h : ∀ e, err e → err' e) : Contained err' buf d := by
  intro st hst
  have := hd st hst
  split at this <;> simp_all only

theorem Contained.loop {d : Decoder α} (hd : Contained err buf d) (len : Nat) :
    Contained err buf (decodeLoop d len) := by
  induction len with
  | zero => exact .pure _
  | succ len ih => exact hd.bind fun _ => ih.bind fun _ => .pure _

end Contained

section Decoders

variable (buf : List UInt8)

theorem contained_decodeUsize : Contained (· = .encoding) buf (decodeUsize buf) := by
  intro st _
  simp only [StateT.run, decodeUsize, decodeVarintOr]
  cases hr : readVarint buf st.start with
  | none => rfl
  | some q =>
    obtain ⟨v, p⟩ := q
    exact (readVarint_bound hr).1

theorem contained_decodeU64 : Contained (· = .encoding) buf (decodeU64 buf) :=
  (contained_decodeUsize buf).bind fun _ => .pure _

theorem contained_get (n : Nat) : Contained (· = .encoding) buf (get buf n) := by
  intro st _
  simp only [StateT.run, get, getOr]
  cases hr : readAt buf st.start n with
  | none => rfl
  | some bs => exact (readAt_le hr).1

theorem contained_withCapacity (len : Nat) :
    Contained (· = .panic "capacity overflow") buf (withCapacity len) := by
  intro st hst
  by_cases h : len ≤ ISIZE_MAX
  · simp only [withCapacity, dif_pos h]
    exact hst
  · simp only [withCapacity, dif_neg h]
    rfl

-- The 32 bytes of a hash are allocated only once they have been read.
theorem contained_decodeFixed32 : Contained (· = .encoding) buf (decodeFixed32 buf) := by
  intro st hst
  have hg := contained_get buf 32 st hst
  rw [decodeFixed32, StateT.run_bind]
  cases hr : (get buf 32).run st with
  | error e => simpa only [hr] using hg
  | ok p =>
    obtain ⟨bs, st'⟩ := p
    have hlen : bs.length ≤ ISIZE_MAX := by
      simp only [StateT.run, get, getOr] at hr
      split at hr
      · cases hr
        rw [(readAt_le ‹_›).2]
        decide
      · cases hr
    simp only [hr] at hg
    simpa only [ok_bind, toVec_run_of_le hlen] using hg

theorem contained_decodeBytes : Contained LengthError buf (decodeBytes buf) :=
  ((contained_decodeUsize buf).mono fun _ => .inl).bind fun _ =>
    ((contained_get buf _).mono fun _ => .inl).bind fun _ =>
      ((contained_withCapacity buf _).mono fun _ => .inr).bind fun _ => .pure _

theorem contained_decodeNode : Contained (· = .encoding) buf (decodeNode buf) :=
  (contained_decodeU64 buf).bind fun _ => (contained_decodeU64 buf).bind fun _ =>
    (contained_decodeFixed32 buf).bind fun _ => .pure _

theorem contained_decodeNodes : Contained LengthError buf (decodeNodes buf) :=
  ((contained_decodeUsize buf).mono fun _ => .inl).bind fun _ =>
    ((contained_withCapacity buf _).mono fun _ => .inr).bind fun _ =>
      (((contained_decodeNode buf).mono fun _ => .inl).loop _).bind fun _ => .pure _

theorem contained_decodeRequestBlock : Contained (· = .encoding) buf (decodeRequestBlock buf) :=
  (contained_decodeU64 buf).bind fun _ => (contained_decodeU64 buf).bind fun _ => .pure _

theorem contained_decodeRequestSeek : Contained (· = .encoding) buf (decodeRequestSeek buf) :=
  (contained_decodeU64 buf).bind fun _ => .pure _

theorem contained_decodeRequestUpgrade :
    Contained (· = .encoding) buf (decodeRequestUpgrade buf) :=
  (contained_decodeU64 buf).bind fun _ => (contained_decodeU64 buf).bind fun _ => .pure _

theorem contained_decodeDataBlock : Contained LengthError buf (decodeDataBlock buf) :=
  ((contained_decodeU64 buf).mono fun _ => .inl).bind fun _ => (contained_decodeBytes buf).bind fun _ =>
    (contained_decodeNodes buf).bind fun _ => .pure _

theorem contained_decodeDataHash : Contained LengthError buf (decodeDataHash buf) :=
  ((contained_decodeU64 buf).mono fun _ => .inl).bind fun _ =>
    (contained_decodeNodes buf).bind fun _ => .pure _

theorem contained_decodeDataSeek : Contained LengthError buf (decodeDataSeek buf) :=
  ((contained_decodeU64 buf).mono fun _ => .inl).bind fun _ =>
    (contained_decodeNodes buf).bind fun _ => .pure _

theorem contained_decodeDataUpgrade : Contained LengthError buf (decodeDataUpgrade buf) :=
  ((contained_decodeU64 buf).mono fun _ => .inl).bind fun _ =>
    ((contained_decodeU64 buf).mono fun _ => .inl).bind fun _ =>
      (contained_decodeNodes buf).bind fun _ => (contained_decodeNodes buf).bind fun _ =>
        (contained_decodeBytes buf).bind fun _ => .pure _

-- The decoders that allocate for no length they read never panic: on untrusted bytes they end
-- with an encoding error or with the cursor still inside the buffer.
theorem node_request_decoders_contained :
    Contained (· = .encoding) buf (decodeNode buf) ∧
    Contained (· = .encoding) buf (decodeRequestBlock buf) ∧
    Contained (· = .encoding) buf (decodeRequestSeek buf) ∧
    Contained (· = .encoding) buf (decodeRequestUpgrade buf) :=
  ⟨contained_decodeNode buf, contained_decodeRequestBlock buf, contained_decodeRequestSeek buf,
    contained_decodeRequestUpgrade buf⟩

end Decoders

theorem decodeNodes_of_long {buf : List UInt8} {st : State} {len : Nat} (hlong : ISIZE_MAX < len)
    (hlen : len < 2 ^ 64) (h : Holds buf st.start (varint len)) :
    (decodeNodes buf).run st = .error (.panic "capacity overflow") := by
  simp only [decodeNodes, StateT.run_bind, decodeUsize_of_holds hlen h, ok_bind, withCapacity,
    dif_neg (Nat.not_le.mpr hlong)]
  rfl

-- A length prefix of `u64::MAX` reaches `Vec::with_capacity` before a single node is read,
-- at any offset and whatever follows it.
theorem decodeNodes_capacity_overflow (pre rest : List UInt8) (e : Nat) :
    (decodeNodes (pre ++ List.replicate 9 255 ++ rest)).run ⟨pre.length, e⟩ =
      .error (.panic "capacity overflow") := by
  have hw : varint (2 ^ 64 - 1) = List.replicate 9 255 := by decide
  have h : Holds (pre ++ List.replicate 9 255 ++ rest) pre.length (varint (2 ^ 64 - 1)) := by
    rw [hw]
    exact holds_middle pre _ rest
  exact @decodeNodes_of_long _ ⟨pre.length, e⟩ _ (by decide) (by decide) h

end GnostrCore.Encoding
