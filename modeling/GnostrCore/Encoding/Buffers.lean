import GnostrCore.Encoding.Theorems

namespace GnostrCore.Encoding

-- The constructors of `HypercoreState`: it derefs to the `State` it wraps, and its constructors
-- pass through to those of `compact_encoding::State` (the crate is not under src/), which set
-- the cursor as named.
namespace HypercoreState

-- `HypercoreState::new()`: `State::new()` of the crate, nothing read and nothing counted
def new : State := ⟨0, 0⟩

-- `HypercoreState::new_with_size(size)`: `State::new_with_size(size)` of the crate, the state
-- with `size` counted and a zeroed buffer of that size
def newWithSize (size : Nat) : State × List UInt8 := (⟨0, size⟩, List.replicate size 0)

-- `HypercoreState::new_with_start_and_end(start, end)`: `State::new_with_start_and_end` of the
-- crate
def newWithStartAndEnd (start «end» : Nat) : State := ⟨start, «end»⟩

-- `HypercoreState::from_buffer(buffer)`: `State::from_buffer(buffer)` of the crate, the cursor
-- at the buffer's first byte and its end at the buffer's length
def fromBuffer (buffer : List UInt8) : State := ⟨0, buffer.length⟩

end HypercoreState

-- The calling pattern of a codec: count from `HypercoreState::new()`, encode into the buffer
-- `new_with_size` allocates for that count, and decode from `from_buffer` of what was written.
def Pipeline (c : CompactEncoding α) (wf : α → Prop) : Prop :=
  ∀ x, wf x → ∃ buf : List UInt8,
    (c.preencode x).run HypercoreState.new = .ok ((), ⟨0, buf.length⟩) ∧
    (c.encode x).run (HypercoreState.newWithSize buf.length) =
      .ok ((), (⟨buf.length, buf.length⟩, buf)) ∧
    (c.decode buf).run (HypercoreState.fromBuffer buf) = .ok (x, ⟨buf.length, buf.length⟩)

theorem writeAt_replicate_zero (bs : List UInt8) : writeAt (List.replicate bs.length 0) 0 bs = bs := by
  simp only [writeAt, List.take_zero, List.nil_append, Nat.zero_add, List.drop_replicate,
    Nat.sub_self, List.replicate_zero, List.append_nil]

theorem Follows.pipeline {c : CompactEncoding α} {wf : α → Prop} {wire : α → List UInt8}
    (hc : Follows c wf wire) : Pipeline c wf := by
  intro x hx
  refine ⟨wire x, ?_, ?_, ?_⟩
  · rw [hc.preencode_eq x hx, addEnd_run]
    simp only [HypercoreState.new, Nat.zero_add]
  · rw [hc.encode_eq x hx, HypercoreState.newWithSize, @put_run _ _ ⟨0, _⟩ (by simp),
      writeAt_replicate_zero]
    simp only [State.advance, Nat.zero_add]
  · rw [hc.decode_of_holds x hx _ (HypercoreState.fromBuffer (wire x))
      (by simpa using holds_middle [] (wire x) [])]
    simp only [HypercoreState.fromBuffer, State.advance, Nat.zero_add]

theorem wire_pipeline :
    Pipeline nodeEncoding (·.hash.length = 32) ∧ Pipeline nodesEncoding HashesOk ∧
    Pipeline requestBlockEncoding (fun _ => True) ∧ Pipeline requestSeekEncoding (fun _ => True) ∧
    Pipeline requestUpgradeEncoding (fun _ => True) ∧
    Pipeline dataBlockEncoding (HashesOk ·.nodes) ∧ Pipeline dataHashEncoding (HashesOk ·.nodes) ∧
    Pipeline dataSeekEncoding (HashesOk ·.nodes) ∧
    Pipeline dataUpgradeEncoding (fun x => HashesOk x.nodes ∧ HashesOk x.additional_nodes) :=
  ⟨follows_node.pipeline, follows_nodes.pipeline, follows_requestBlock.pipeline,
    follows_requestSeek.pipeline, follows_requestUpgrade.pipeline, follows_dataBlock.pipeline,
    follows_dataHash.pipeline, follows_dataSeek.pipeline, follows_dataUpgrade.pipeline⟩

-- Truncated buffers: a decoder reads its buffer only through bounds-checked reads, so on a
-- prefix of a buffer it ends as it does on the whole buffer, or with an encoding error at the
-- first read past the prefix.

-- `d` runs over a prefix of the buffer `d'` runs over.
def OnPrefix (d d' : Decoder α) : Prop :=
  ∀ st r, d'.run st = .ok r → d.run st = .ok r ∨ d.run st = .error .encoding

theorem OnPrefix.refl (d : Decoder α) : OnPrefix d d :=
  fun _ _ h => .inl h

theorem OnPrefix.bind {d d' : Decoder α} {f f' : α → Decoder β} (hd : OnPrefix d d')
    (hf : ∀ a, OnPrefix (f a) (f' a)) : OnPrefix (d >>= f) (d' >>= f') := by
  intro st r h
  rw [StateT.run_bind] at h ⊢
  obtain ⟨⟨a, st₁⟩, h₁, h₂⟩ := bind_eq_ok.mp h
  rcases hd st _ h₁ with h₁' | h₁'
  · rw [h₁', ok_bind]
    exact hf a st₁ r h₂
  · rw [h₁', error_bind]
    exact .inr rfl

theorem OnPrefix.loop {d d' : Decoder α} (hd : OnPrefix d d') (len : Nat) :
    OnPrefix (decodeLoop d len) (decodeLoop d' len) := by
  induction len with
  | zero => exact .refl _
  | succ len ih => exact hd.bind fun _ => ih.bind fun _ => .refl _

section Prefix

variable (buf more : List UInt8)

theorem onPrefix_get (n : Nat) : OnPrefix (get buf n) (get (buf ++ more) n) := by
  intro st r h
  simp only [StateT.run, get, getOr] at h ⊢
  cases hr : readAt (buf ++ more) st.start n with
  | none => rw [hr] at h; cases h
  | some bs =>
    rw [hr] at h
    rcases readAt_append hr with h' | h'
    · exact .inl (by rw [h']; exact h)
    · exact .inr (by rw [h'])

theorem onPrefix_decodeUsize : OnPrefix (decodeUsize buf) (decodeUsize (buf ++ more)) := by
  intro st r h
  simp only [StateT.run, decodeUsize, decodeVarintOr] at h ⊢
  cases hr : readVarint (buf ++ more) st.start with
  | none => rw [hr] at h; cases h
  | some q =>
    rw [hr] at h
    rcases readVarint_append hr with h' | h'
    · exact .inl (by rw [h']; exact h)
    · exact .inr (by rw [h'])

theorem onPrefix_decodeU64 : OnPrefix (decodeU64 buf) (decodeU64 (buf ++ more)) :=
  (onPrefix_decodeUsize buf more).bind fun _ => .refl _

theorem onPrefix_decodeBytes : OnPrefix (decodeBytes buf) (decodeBytes (buf ++ more)) :=
  (onPrefix_decodeUsize buf more).bind fun _ => (onPrefix_get buf more _).bind fun _ => .refl _

theorem onPrefix_decodeFixed32 : OnPrefix (decodeFixed32 buf) (decodeFixed32 (buf ++ more)) :=
  (onPrefix_get buf more _).bind fun _ => .refl _

theorem onPrefix_decodeNode : OnPrefix (decodeNode buf) (decodeNode (buf ++ more)) :=
  (onPrefix_decodeU64 buf more).bind fun _ => (onPrefix_decodeU64 buf more).bind fun _ =>
    (onPrefix_decodeFixed32 buf more).bind fun _ => .refl _

theorem onPrefix_decodeNodes : OnPrefix (decodeNodes buf) (decodeNodes (buf ++ more)) :=
  (onPrefix_decodeUsize buf more).bind fun _ => (OnPrefix.refl _).bind fun _ =>
    ((onPrefix_decodeNode buf more).loop _).bind fun _ => .refl _

theorem onPrefix_decodeRequestBlock :
    OnPrefix (decodeRequestBlock buf) (decodeRequestBlock (buf ++ more)) :=
  (onPrefix_decodeU64 buf more).bind fun _ => (onPrefix_decodeU64 buf more).bind fun _ => .refl _

theorem onPrefix_decodeRequestSeek :
    OnPrefix (decodeRequestSeek buf) (decodeRequestSeek (buf ++ more)) :=
  (onPrefix_decodeU64 buf more).bind fun _ => .refl _

theorem onPrefix_decodeRequestUpgrade :
    OnPrefix (decodeRequestUpgrade buf) (decodeRequestUpgrade (buf ++ more)) :=
  (onPrefix_decodeU64 buf more).bind fun _ => (onPrefix_decodeU64 buf more).bind fun _ => .refl _

theorem onPrefix_decodeDataBlock : OnPrefix (decodeDataBlock buf) (decodeDataBlock (buf ++ more)) :=
  (onPrefix_decodeU64 buf more).bind fun _ => (onPrefix_decodeBytes buf more).bind fun _ =>
    (onPrefix_decodeNodes buf more).bind fun _ => .refl _

theorem onPrefix_decodeDataHash : OnPrefix (decodeDataHash buf) (decodeDataHash (buf ++ more)) :=
  (onPrefix_decodeU64 buf more).bind fun _ => (onPrefix_decodeNodes buf more).bind fun _ => .refl _

theorem onPrefix_decodeDataSeek : OnPrefix (decodeDataSeek buf) (decodeDataSeek (buf ++ more)) :=
  (onPrefix_decodeU64 buf more).bind fun _ => (onPrefix_decodeNodes buf more).bind fun _ => .refl _

theorem onPrefix_decodeDataUpgrade :
    OnPrefix (decodeDataUpgrade buf) (decodeDataUpgrade (buf ++ more)) :=
  (onPrefix_decodeU64 buf more).bind fun _ => (onPrefix_decodeU64 buf more).bind fun _ =>
    (onPrefix_decodeNodes buf more).bind fun _ => (onPrefix_decodeNodes buf more).bind fun _ =>
      (onPrefix_decodeBytes buf more).bind fun _ => .refl _

end Prefix

-- Every proper prefix of the bytes `encode` writes, found at any offset of a buffer, fails to
-- decode with an encoding error: a truncated message is neither read as a value nor a panic.
def RejectsTruncation (c : CompactEncoding α) (wf : α → Prop) : Prop :=
  ∀ x, wf x → ∀ st buf st' buf', (c.encode x).run (st, buf) = .ok ((), (st', buf')) →
    ∀ k < st'.start - st.start, ∀ pre e,
      (c.decode (pre ++ (buf'.drop st.start).take k)).run
        (HypercoreState.newWithStartAndEnd pre.length e) = .error .encoding

-- The decoder reads the whole encoding, so a prefix of it makes a read run past the end.
theorem Follows.decode_take {c : CompactEncoding α} {wf : α → Prop} {wire : α → List UInt8}
    (hc : Follows c wf wire) {err : Error → Prop} (hin : ∀ buf, Contained err buf (c.decode buf))
    (hpre : ∀ buf more, OnPrefix (c.decode buf) (c.decode (buf ++ more))) {x : α} (hx : wf x)
    {k : Nat} (hk : k < (wire x).length) (pre : List UInt8) (e : Nat) :
    (c.decode (pre ++ (wire x).take k)).run ⟨pre.length, e⟩ = .error .encoding := by
  have hwhole : (c.decode (pre ++ (wire x).take k ++ (wire x).drop k)).run ⟨pre.length, e⟩ =
      .ok (x, ⟨pre.length + (wire x).length, e⟩) := by
    rw [List.append_assoc, List.take_append_drop]
    exact hc.decode_of_holds x hx _ _ (by simpa using holds_middle pre (wire x) [])
  rcases hpre _ _ _ _ hwhole with h | h
  · have hend := hin (pre ++ (wire x).take k) ⟨pre.length, e⟩ (by simp)
    rw [h] at hend
    simp only [List.length_append, List.length_take] at hend
    omega
  · exact h

theorem Follows.rejectsTruncation {c : CompactEncoding α} {wf : α → Prop} {wire : α → List UInt8}
    (hc : Follows c wf wire) {err : Error → Prop} (hin : ∀ buf, Contained err buf (c.decode buf))
    (hpre : ∀ buf more, OnPrefix (c.decode buf) (c.decode (buf ++ more))) :
    RejectsTruncation c wf := by
  intro x hx st buf st' buf' henc k hk pre e
  rw [hc.encode_eq x hx] at henc
  obtain ⟨hle, rfl, rfl⟩ := putOr_run_eq_ok henc
  have hw := (holds_writeAt hle).2
  simp only [State.advance_start, Nat.add_sub_cancel_left] at hk
  have htake : ((writeAt buf st.start (wire x)).drop st.start).take k = (wire x).take k := by
    conv_rhs => rw [← hw]
    rw [List.take_take, Nat.min_eq_left hk.le]
  rw [htake]
  exact hc.decode_take hin hpre hx hk pre e

theorem wire_rejects_truncation :
    RejectsTruncation nodeEncoding (·.hash.length = 32) ∧ RejectsTruncation nodesEncoding HashesOk ∧
    RejectsTruncation requestBlockEncoding (fun _ => True) ∧
    RejectsTruncation requestSeekEncoding (fun _ => True) ∧
    RejectsTruncation requestUpgradeEncoding (fun _ => True) ∧
    RejectsTruncation dataBlockEncoding (HashesOk ·.nodes) ∧
    RejectsTruncation dataHashEncoding (HashesOk ·.nodes) ∧
    RejectsTruncation dataSeekEncoding (HashesOk ·.nodes) ∧
    RejectsTruncation dataUpgradeEncoding (fun x => HashesOk x.nodes ∧ HashesOk x.additional_nodes) :=
  ⟨follows_node.rejectsTruncation contained_decodeNode onPrefix_decodeNode,
    follows_nodes.rejectsTruncation contained_decodeNodes onPrefix_decodeNodes,
    follows_requestBlock.rejectsTruncation contained_decodeRequestBlock onPrefix_decodeRequestBlock,
    follows_requestSeek.rejectsTruncation contained_decodeRequestSeek onPrefix_decodeRequestSeek,
    follows_requestUpgrade.rejectsTruncation contained_decodeRequestUpgrade
      onPrefix_decodeRequestUpgrade,
    follows_dataBlock.rejectsTruncation contained_decodeDataBlock onPrefix_decodeDataBlock,
    follows_dataHash.rejectsTruncation contained_decodeDataHash onPrefix_decodeDataHash,
    follows_dataSeek.rejectsTruncation contained_decodeDataSeek onPrefix_decodeDataSeek,
    follows_dataUpgrade.rejectsTruncation contained_decodeDataUpgrade onPrefix_decodeDataUpgrade⟩

-- a `u64` announced by 253 with only one of its two bytes
example : (decodeRequestSeek [253, 1]).run (HypercoreState.fromBuffer [253, 1]) = .error .encoding :=
  rfl

end GnostrCore.Encoding
