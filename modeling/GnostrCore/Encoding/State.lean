import GnostrCore.Encoding.Bytes

namespace GnostrCore.Encoding

/-- Modelled from the spec: `compact_encoding::State`, the cursor of one encoding run (the crate
is not under src/). `start` is where the next byte is written or read, `end` the size the
pre-encoding pass has counted so far. Both are `usize` in the crate; the model counts in
naturals, and `addEndChecked` is the crate's step on the `usize` end. -/
structure State where
  start : Nat
  «end» : Nat
deriving Repr, DecidableEq

-- How a call ends when it does not succeed: an `Err(EncodingError)` handed back to the
-- caller, or a panic of the thread.
inductive Error where
  | encoding
  | panic (message : String)
deriving Repr, DecidableEq

def State.advance (st : State) (n : Nat) : State := { st with start := st.start + n }

@[simp] theorem State.advance_start (st : State) (n : Nat) : (st.advance n).start = st.start + n :=
  rfl

@[simp] theorem State.advance_end (st : State) (n : Nat) : (st.advance n).end = st.end := rfl

theorem State.advance_advance (st : State) (m n : Nat) :
    (st.advance m).advance n = st.advance (m + n) := by
  simp only [State.advance, Nat.add_assoc]

-- Reading a compact form field by field: the rest sits where the cursor has moved to.
theorem holds_advance {buf a b : List UInt8} {st : State} :
    Holds buf st.start (a ++ b) ↔ Holds buf st.start a ∧ Holds buf (st.advance a.length).start b :=
  holds_append

-- `&mut State` threaded through a pre-encoding pass
abbrev Preencoder := StateT State (Except Error)
-- `&mut State` and the `&mut [u8]` buffer threaded through an encoding pass
abbrev Encoder := StateT (State × List UInt8) (Except Error)
-- `&mut State` threaded through a decoding pass over a buffer that is only read
abbrev Decoder := StateT State (Except Error)

@[simp] theorem ok_bind (a : α) (f : α → Except ε β) : (Except.ok a >>= f) = f a := rfl

theorem bind_eq_ok {x : Except ε α} {f : α → Except ε β} {b : β} :
    x >>= f = .ok b ↔ ∃ a, x = .ok a ∧ f a = .ok b := by
  cases x <;> simp [bind, Except.bind]

@[simp] theorem error_bind (e : ε) (f : α → Except ε β) :
    (Except.error e >>= f : Except ε β) = .error e := rfl

/-- Modelled from the spec: the pre-encoding pass counts `n` more bytes. -/
def addEnd (n : Nat) : Preencoder Unit :=
  modify fun st => { st with «end» := st.end + n }

/-- Modelled from the spec: `State::add_end` of the crate, the same count on the `usize` end,
added with `checked_add`: an end past `usize::MAX` is an encoding error. -/
def addEndChecked (n : Nat) : Preencoder Unit := fun st =>
  if st.end + n ≤ USIZE_MAX then .ok ((), { st with «end» := st.end + n }) else .error .encoding

/-- Modelled from the spec: the bytes `bs` written at `start`, which moves past them. A buffer
too short for them ends the call with `fail`. -/
def putOr (fail : Error) (bs : List UInt8) : Encoder Unit := fun (st, buf) =>
  if st.start + bs.length ≤ buf.length then .ok ((), (st.advance bs.length, writeAt buf st.start bs))
  else .error fail

/-- Modelled from the spec: `n` bytes read at `start`, which moves past them. A buffer that
ends first ends the call with `fail`. -/
def getOr (fail : Error) (buf : List UInt8) (n : Nat) : Decoder (List UInt8) := fun st =>
  match readAt buf st.start n with
  | some bs => .ok (bs, st.advance n)
  | none => .error fail

/-- Modelled from the spec: a compact-encoded unsigned integer read at `start`. A buffer that
ends first ends the call with `fail`. -/
def decodeVarintOr (fail : Error) (buf : List UInt8) : Decoder Nat := fun st =>
  match readVarint buf st.start with
  | some (v, p) => .ok (v, { st with start := p })
  | none => .error fail

-- `Vec::with_capacity(len)`: an allocation above `isize::MAX` bytes panics with
-- "capacity overflow". Every element takes at least a byte, so a longer request always does.
-- A shorter one panics too once `len * size_of::<T>()` passes `isize::MAX`, and aborts when the
-- allocator cannot serve it; the model leaves both out and goes on.
def withCapacity (len : Nat) : Decoder (PLift (len ≤ ISIZE_MAX)) :=
  if h : len ≤ ISIZE_MAX then pure ⟨h⟩ else throw (.panic "capacity overflow")

-- `to_vec()` of a slice: a fresh allocation, then the copy
def toVec (bs : List UInt8) : Decoder (Vec UInt8) := do
  let cap ← withCapacity bs.length
  pure ⟨bs, cap.down⟩

-- `for _ in 0..len { value.push(self.decode(buffer)?); }`: `len` values read one after another
def decodeLoop (d : Decoder α) : (len : Nat) → Decoder {xs : List α // xs.length = len}
  | 0 => pure ⟨[], rfl⟩
  | len + 1 => do
    let x ← d
    let rest ← decodeLoop d len
    pure ⟨x :: rest.1, by rw [List.length_cons, rest.2]⟩

-- The crate's codecs for `u64`, `usize` and byte vectors, written once over `fail`, how a
-- buffer that is too short ends the call: `encoding.rs` builds on the crate version that
-- returns an encoding error, the oplog on the older one that panics.

def preencodeU64 (v : UInt64) : Preencoder Unit := addEnd (varintSize v.toNat)

def decodeU64Or (fail : Error) (buf : List UInt8) : Decoder UInt64 := do
  let v ← decodeVarintOr fail buf
  pure (UInt64.ofNat v)

def preencodeUsize (n : Nat) : Preencoder Unit := addEnd (varintSize n)

-- `bytes`: the length, then the payload
def preencodeBytes (v : Vec UInt8) : Preencoder Unit := do
  preencodeUsize v.length
  addEnd v.length

def encodeBytesOr (fail : Error) (v : Vec UInt8) : Encoder Unit := do
  putOr fail (varint v.length)
  putOr fail v.toList

def decodeBytesOr (fail : Error) (buf : List UInt8) : Decoder (Vec UInt8) := do
  let len ← decodeVarintOr fail buf
  let bs ← getOr fail buf len
  toVec bs

-- the codecs `encoding.rs` builds on, where a short buffer is an encoding error
def put (bs : List UInt8) : Encoder Unit := putOr .encoding bs

def get (buf : List UInt8) (n : Nat) : Decoder (List UInt8) := getOr .encoding buf n

def encodeU64 (v : UInt64) : Encoder Unit := put (varint v.toNat)

def decodeU64 (buf : List UInt8) : Decoder UInt64 := decodeU64Or .encoding buf

def encodeUsize (n : Nat) : Encoder Unit := put (varint n)

-- a `usize` is 64 bits wide
def decodeUsize (buf : List UInt8) : Decoder Nat := decodeVarintOr .encoding buf

def encodeBytes (v : Vec UInt8) : Encoder Unit := encodeBytesOr .encoding v

def decodeBytes (buf : List UInt8) : Decoder (Vec UInt8) := decodeBytesOr .encoding buf

def preencodeFixed32 : Preencoder Unit := addEnd 32

/-- Modelled from the spec: `fixed_32` is "raw 32 bytes", so a value of any other length is
refused. -/
def encodeFixed32 (value : Vec UInt8) : Encoder Unit :=
  if value.length = 32 then put value.toList else throw .encoding

def decodeFixed32 (buf : List UInt8) : Decoder (Vec UInt8) := do
  let bs ← get buf 32
  toVec bs

-- the compact form of a `Vec<u8>`
def bytesWire (v : Vec UInt8) : List UInt8 := varint v.length ++ v.toList

theorem putOr_run {fail : Error} {bs buf : List UInt8} {st : State}
    (h : st.start + bs.length ≤ buf.length) :
    (putOr fail bs).run (st, buf) = .ok ((), (st.advance bs.length, writeAt buf st.start bs)) := by
  simp only [StateT.run, putOr, if_pos h]

theorem putOr_run_eq_ok {fail : Error} {bs buf buf' : List UInt8} {st st' : State}
    (h : (putOr fail bs).run (st, buf) = .ok ((), (st', buf'))) :
    st.start + bs.length ≤ buf.length ∧ st' = st.advance bs.length ∧
      buf' = writeAt buf st.start bs := by
  simp only [StateT.run, putOr] at h
  split at h
  · cases h
    exact ⟨‹_›, rfl, rfl⟩
  · cases h

theorem putOr_run_short {fail : Error} {bs buf : List UInt8} {st : State}
    (h : buf.length < st.start + bs.length) : (putOr fail bs).run (st, buf) = .error fail := by
  simp only [StateT.run, putOr, if_neg (Nat.not_le.mpr h)]

theorem putOr_append (fail : Error) (a b : List UInt8) :
    (do putOr fail a; putOr fail b : Encoder Unit) = putOr fail (a ++ b) := by
  funext s
  rcases s with ⟨st, buf⟩
  simp only [bind, StateT.bind, putOr, List.length_append]
  by_cases hab : st.start + (a.length + b.length) ≤ buf.length
  · have ha : st.start + a.length ≤ buf.length := by omega
    have hb : (st.advance a.length).start + b.length ≤ (writeAt buf st.start a).length := by
      rw [length_writeAt ha, State.advance_start]; omega
    rw [if_pos ha, if_pos hab]
    simp only [Except.bind]
    rw [if_pos hb, State.advance_advance, State.advance_start,
      writeAt_append (by simpa using hab)]
  · by_cases ha : st.start + a.length ≤ buf.length
    · have hb : ¬(st.advance a.length).start + b.length ≤ (writeAt buf st.start a).length := by
        rw [length_writeAt ha, State.advance_start]; omega
      rw [if_pos ha, if_neg hab]
      simp only [Except.bind]
      rw [if_neg hb]
    · simp only [if_neg ha, if_neg hab, Except.bind]

-- the same with the rest of the pass after it
theorem putOr_append_bind (fail : Error) (a b : List UInt8) (k : Encoder α) :
    (do putOr fail a; putOr fail b; k : Encoder α) = (do putOr fail (a ++ b); k) := by
  rw [← bind_assoc, putOr_append]

theorem put_run {bs buf : List UInt8} {st : State} (h : st.start + bs.length ≤ buf.length) :
    (put bs).run (st, buf) = .ok ((), (st.advance bs.length, writeAt buf st.start bs)) :=
  putOr_run h

theorem put_append (a b : List UInt8) : (do put a; put b : Encoder Unit) = put (a ++ b) :=
  putOr_append .encoding a b

theorem addEnd_add (a b : Nat) : (do addEnd a; addEnd b : Preencoder Unit) = addEnd (a + b) := by
  funext st
  simp only [addEnd, bind, StateT.bind, modify, modifyGet, MonadStateOf.modifyGet,
    StateT.modifyGet, pure, Except.pure, Except.bind, Nat.add_assoc]

theorem addEnd_add_bind (a b : Nat) (k : Preencoder α) :
    (do addEnd a; addEnd b; k : Preencoder α) = (do addEnd (a + b); k) := by
  rw [← bind_assoc, addEnd_add]

theorem addEnd_run (n : Nat) (st : State) :
    (addEnd n).run st = .ok ((), { st with «end» := st.end + n }) := rfl

theorem addEndChecked_run (n : Nat) (st : State) :
    (addEndChecked n).run st =
      if st.end + n ≤ USIZE_MAX then .ok ((), { st with «end» := st.end + n }) else .error .encoding :=
  rfl

-- Checked steps make one checked step of their sum: the end only grows, so a pass overflows at
-- one of its steps exactly when its whole count does.
theorem addEndChecked_add (a b : Nat) :
    (do addEndChecked a; addEndChecked b : Preencoder Unit) = addEndChecked (a + b) := by
  funext st
  simp only [bind, StateT.bind, addEndChecked, ← Nat.add_assoc]
  by_cases ha : st.end + a ≤ USIZE_MAX
  · simp only [if_pos ha, Except.bind]
  · have hab : ¬st.end + a + b ≤ USIZE_MAX := by omega
    simp only [if_neg ha, if_neg hab, Except.bind]

theorem encodeBytesOr_eq (fail : Error) (v : Vec UInt8) :
    encodeBytesOr fail v = putOr fail (bytesWire v) :=
  putOr_append fail _ _

theorem encodeBytes_eq (v : Vec UInt8) : encodeBytes v = put (bytesWire v) :=
  encodeBytesOr_eq .encoding v

theorem preencodeBytes_eq (v : Vec UInt8) :
    preencodeBytes v = addEnd (bytesWire v).length := by
  simp only [preencodeBytes, preencodeUsize, addEnd_add, bytesWire, List.length_append,
    length_varint, Vec.length]

theorem encodeFixed32_eq {value : Vec UInt8} (h : value.length = 32) :
    encodeFixed32 value = put value.toList := if_pos h

theorem getOr_of_holds {fail : Error} {buf bs : List UInt8} {st : State}
    (h : Holds buf st.start bs) : (getOr fail buf bs.length).run st = .ok (bs, st.advance bs.length) := by
  simp only [StateT.run, getOr, readAt_of_holds h]

theorem get_of_holds {buf bs : List UInt8} {st : State} (h : Holds buf st.start bs) :
    (get buf bs.length).run st = .ok (bs, st.advance bs.length) :=
  getOr_of_holds h

theorem decodeVarintOr_of_holds {fail : Error} {buf : List UInt8} {st : State} {n : Nat}
    (hn : n < 2 ^ 64) (h : Holds buf st.start (varint n)) :
    (decodeVarintOr fail buf).run st = .ok (n, st.advance (varint n).length) := by
  simp only [StateT.run, decodeVarintOr, readVarint_of_holds hn h, length_varint]
  rfl

theorem withCapacity_run {len : Nat} (h : len ≤ ISIZE_MAX) (st : State) :
    (withCapacity len).run st = .ok (⟨h⟩, st) := by
  simp only [withCapacity, dif_pos h]
  rfl

theorem toVec_run_of_le {bs : List UInt8} (h : bs.length ≤ ISIZE_MAX) (st : State) :
    (toVec bs).run st = .ok (⟨bs, h⟩, st) := by
  simp only [toVec, StateT.run_bind, withCapacity_run h, ok_bind]
  rfl

theorem toVec_run (v : Vec UInt8) (st : State) : (toVec v.toList).run st = .ok (v, st) :=
  toVec_run_of_le v.length_le st

-- a `u64` comes back as the value it was
theorem UInt64.ofNat_toNat (v : UInt64) : UInt64.ofNat v.toNat = v :=
  UInt64.toNat.inj (Nat.mod_eq_of_lt (UInt64.toNat_lt v))

theorem decodeU64Or_of_holds {fail : Error} {buf : List UInt8} {st : State} {v : UInt64}
    (h : Holds buf st.start (varint v.toNat)) :
    (decodeU64Or fail buf).run st = .ok (v, st.advance (varint v.toNat).length) := by
  simp only [decodeU64Or, StateT.run_bind, decodeVarintOr_of_holds (UInt64.toNat_lt v) h,
    ok_bind, UInt64.ofNat_toNat]
  rfl

theorem decodeBytesOr_of_holds {fail : Error} {buf : List UInt8} {st : State} {v : Vec UInt8}
    (h : Holds buf st.start (bytesWire v)) :
    (decodeBytesOr fail buf).run st = .ok (v, st.advance (bytesWire v).length) := by
  obtain ⟨h1, h2⟩ := holds_advance.mp h
  have hn : v.length < 2 ^ 64 := lt_of_le_of_lt v.length_le (by decide)
  have hb := @getOr_of_holds fail _ _ _ h2
  simp only [decodeBytesOr, StateT.run_bind, decodeVarintOr_of_holds hn h1, ok_bind]
  simp only [Vec.length] at hb ⊢
  simp only [hb, ok_bind, toVec_run, State.advance_advance, bytesWire, List.length_append,
    Vec.length]

theorem decodeU64_of_holds {buf : List UInt8} {st : State} {v : UInt64}
    (h : Holds buf st.start (varint v.toNat)) :
    (decodeU64 buf).run st = .ok (v, st.advance (varint v.toNat).length) :=
  decodeU64Or_of_holds h

theorem decodeUsize_of_holds {buf : List UInt8} {st : State} {n : Nat} (hn : n < 2 ^ 64)
    (h : Holds buf st.start (varint n)) :
    (decodeUsize buf).run st = .ok (n, st.advance (varint n).length) :=
  decodeVarintOr_of_holds hn h

theorem decodeBytes_of_holds {buf : List UInt8} {st : State} {v : Vec UInt8}
    (h : Holds buf st.start (bytesWire v)) :
    (decodeBytes buf).run st = .ok (v, st.advance (bytesWire v).length) :=
  decodeBytesOr_of_holds h

theorem decodeFixed32_of_holds {buf : List UInt8} {st : State} {v : Vec UInt8}
    (h32 : v.length = 32) (h : Holds buf st.start v.toList) :
    (decodeFixed32 buf).run st = .ok (v, st.advance 32) := by
  have hb := get_of_holds h
  simp only [Vec.length] at h32
  simp only [h32] at hb
  simp only [decodeFixed32, StateT.run_bind, hb, ok_bind, toVec_run]

-- Loops over the elements of a vector: each element codec counts, writes and reads back its own
-- compact form `wire x`, and a loop over a list of elements does so for the elements' forms one
-- after another.

section Loops

variable {α : Type} (wire : α → List UInt8)

-- the `for val in value` loop of `preencode`, after what was counted before it
theorem preencode_loop (pre : α → Preencoder Unit) (l : List α)
    (hl : ∀ x ∈ l, pre x = addEnd (wire x).length) (n : Nat) :
    (do addEnd n; for val in l do pre val : Preencoder Unit) = addEnd (n + (l.flatMap wire).length) := by
  induction l generalizing n with
  | nil =>
    simp only [List.forIn_nil, bind_pure_comp, map_pure, id_map', List.flatMap_nil, List.length_nil,
      Nat.add_zero]
  | cons x xs ih =>
    simp only [List.forIn_cons, bind_assoc, pure_bind, hl x (List.mem_cons_self x xs),
      addEnd_add_bind]
    rw [ih (fun y hy => hl y (List.mem_cons_of_mem x hy)), List.flatMap_cons, List.length_append,
      Nat.add_assoc]

-- the `for val in value` loop of `encode`, after what was written before it
theorem encode_loop {fail : Error} (enc : α → Encoder Unit) (l : List α)
    (hl : ∀ x ∈ l, enc x = putOr fail (wire x)) (a : List UInt8) :
    (do putOr fail a; for val in l do enc val : Encoder Unit) = putOr fail (a ++ l.flatMap wire) := by
  induction l generalizing a with
  | nil =>
    simp only [List.forIn_nil, bind_pure_comp, map_pure, id_map', List.flatMap_nil, List.append_nil]
  | cons x xs ih =>
    simp only [List.forIn_cons, bind_assoc, pure_bind, hl x (List.mem_cons_self x xs),
      putOr_append_bind]
    rw [ih (fun y hy => hl y (List.mem_cons_of_mem x hy)), List.flatMap_cons, List.append_assoc]

theorem decodeLoop_of_holds {d : Decoder α} {buf : List UInt8} (l : List α)
    (hd : ∀ x ∈ l, ∀ st : State, Holds buf st.start (wire x) →
      d.run st = .ok (x, st.advance (wire x).length))
    {st : State} (h : Holds buf st.start (l.flatMap wire)) :
    (decodeLoop d l.length).run st = .ok (⟨l, rfl⟩, st.advance (l.flatMap wire).length) := by
  induction l generalizing st with
  | nil =>
    rfl
  | cons x xs ih =>
    rw [List.flatMap_cons] at h
    obtain ⟨h1, h2⟩ := holds_advance.mp h
    simp only [List.length_cons, decodeLoop, StateT.run_bind,
      hd x (List.mem_cons_self x xs) st h1, ok_bind,
      ih (fun y hy => hd y (List.mem_cons_of_mem x hy)) h2]
    simp only [State.advance_advance, List.flatMap_cons, List.length_append]
    rfl

end Loops

end GnostrCore.Encoding
