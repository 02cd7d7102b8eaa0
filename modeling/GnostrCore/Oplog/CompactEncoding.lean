import GnostrCore.Encoding.State

namespace GnostrCore.Oplog

open GnostrCore.Encoding hiding encodeU64 decodeU64 encodeUsize decodeUsize encodeBytes decodeBytes

-- The oplog is written against an older version of the crate (not under src/): `preencode`,
-- `encode` and `decode` return no `Result`, so a buffer too short for a read or a write panics, and
-- so does every `unwrap` of a failed conversion. The byte format is the spec's, as in
-- `encoding.rs`.

def outOfBounds : Error := .panic "index out of bounds"

def unwrapFailed : Error := .panic "called Result::unwrap() on an Err value"

-- What a UTF-8 lead byte announces: how many continuation bytes follow, and the range the
-- first of them lies in (every later one lies in 0x80 to 0xBF).
def utf8Lead (b : UInt8) : Option (Nat × UInt8 × UInt8) :=
  if b ≤ 0x7F then some (0, 0x80, 0xBF)
  else if 0xC2 ≤ b ∧ b ≤ 0xDF then some (1, 0x80, 0xBF)
  else if b = 0xE0 then some (2, 0xA0, 0xBF)
  else if 0xE1 ≤ b ∧ b ≤ 0xEC then some (2, 0x80, 0xBF)
  else if b = 0xED then some (2, 0x80, 0x9F)
  else if 0xEE ≤ b ∧ b ≤ 0xEF then some (2, 0x80, 0xBF)
  else if b = 0xF0 then some (3, 0x90, 0xBF)
  else if 0xF1 ≤ b ∧ b ≤ 0xF3 then some (3, 0x80, 0xBF)
  else if b = 0xF4 then some (3, 0x80, 0x8F)
  else none

/-- Modelled from the spec: a `string` is UTF-8 bytes, the bytes a Rust `String` holds. Every
character is a lead byte and the continuation bytes it announces, in the ranges that rule out
overlong forms, surrogates and code points past U+10FFFF. -/
def utf8Valid (bs : List UInt8) : Bool := go 0 0x80 0xBF bs
where
  -- `n` continuation bytes still owed, the next one in `[lo, hi]`
  go : Nat → UInt8 → UInt8 → List UInt8 → Bool
  | 0, _, _, [] => true
  | _ + 1, _, _, [] => false
  | 0, _, _, b :: bs =>
    match utf8Lead b with
    | some (n, lo, hi) => go n lo hi bs
    | none => false
  | n + 1, lo, hi, b :: bs => lo ≤ b && b ≤ hi && go n 0x80 0xBF bs

-- Rust's `String`: a vector of bytes that are UTF-8
structure RString where
  utf8 : Vec UInt8
  valid : utf8Valid utf8.toList = true
deriving DecidableEq

def encodeU64 (v : UInt64) : Encoder Unit := putOr outOfBounds (varint v.toNat)

def decodeU64 (buf : List UInt8) : Decoder UInt64 := decodeU64Or outOfBounds buf

def encodeUsize (n : Nat) : Encoder Unit := putOr outOfBounds (varint n)

def decodeUsize (buf : List UInt8) : Decoder Nat := decodeVarintOr outOfBounds buf

-- `Box<[u8]>`
def encodeBytes (v : Vec UInt8) : Encoder Unit := encodeBytesOr outOfBounds v

def decodeBytes (buf : List UInt8) : Decoder (Vec UInt8) := decodeBytesOr outOfBounds buf

/-- Modelled from the spec: a `String` is written as its UTF-8 bytes with their length in
front, as `bytes` are. Bytes that are not UTF-8 make no `String`, and decoding panics there. -/
def preencodeString (value : RString) : Preencoder Unit := preencodeBytes value.utf8

def encodeString (value : RString) : Encoder Unit := encodeBytes value.utf8

def decodeString (buf : List UInt8) : Decoder RString := do
  let utf8 ← decodeBytes buf
  if h : utf8Valid utf8.toList then pure ⟨utf8, h⟩ else throw unwrapFailed

/-- Modelled from the spec: `array<T>` is the length, then the elements; decoding allocates
for the length it reads before it reads an element, as `encoding.rs` does for `Vec<Node>`. -/
def preencodeStrings (value : Vec RString) : Preencoder Unit := do
  preencodeUsize value.length
  for s in value.toList do
    preencodeString s

def encodeStrings (value : Vec RString) : Encoder Unit := do
  encodeUsize value.length
  for s in value.toList do
    encodeString s

def decodeStrings (buf : List UInt8) : Decoder (Vec RString) := do
  let len ← decodeUsize buf
  let cap ← withCapacity len
  let value ← decodeLoop (decodeString buf) len
  pure ⟨value.1, by rw [value.2]; exact cap.down⟩

def RString.wire (s : RString) : List UInt8 := bytesWire s.utf8

def stringsWire (v : Vec RString) : List UInt8 := varint v.length ++ v.toList.flatMap RString.wire

theorem decodeU64_of_holds {buf : List UInt8} {st : State} {v : UInt64}
    (h : Holds buf st.start (varint v.toNat)) :
    (decodeU64 buf).run st = .ok (v, st.advance (varint v.toNat).length) :=
  decodeU64Or_of_holds h

theorem decodeBytes_of_holds {buf : List UInt8} {st : State} {v : Vec UInt8}
    (h : Holds buf st.start (bytesWire v)) :
    (decodeBytes buf).run st = .ok (v, st.advance (bytesWire v).length) :=
  decodeBytesOr_of_holds h

theorem preencodeString_eq (s : RString) : preencodeString s = addEnd s.wire.length :=
  preencodeBytes_eq s.utf8

theorem encodeString_eq (s : RString) : encodeString s = putOr outOfBounds s.wire :=
  encodeBytesOr_eq outOfBounds s.utf8

theorem decodeString_of_holds {buf : List UInt8} {st : State} {s : RString}
    (h : Holds buf st.start s.wire) :
    (decodeString buf).run st = .ok (s, st.advance s.wire.length) := by
  simp only [decodeString, StateT.run_bind, decodeBytes_of_holds h, ok_bind, dif_pos s.valid]
  rfl

theorem preencodeStrings_eq (v : Vec RString) :
    preencodeStrings v = addEnd (stringsWire v).length := by
  simp only [preencodeStrings, preencodeUsize,
    preencode_loop RString.wire preencodeString v.toList fun x _ => preencodeString_eq x,
    stringsWire, List.length_append, length_varint, Vec.length]

theorem encodeStrings_eq (v : Vec RString) :
    encodeStrings v = putOr outOfBounds (stringsWire v) := by
  simp only [encodeStrings, encodeUsize,
    encode_loop RString.wire encodeString v.toList fun x _ => encodeString_eq x, stringsWire]

theorem decodeStrings_of_holds {buf : List UInt8} {st : State} {v : Vec RString}
    (h : Holds buf st.start (stringsWire v)) :
    (decodeStrings buf).run st = .ok (v, st.advance (stringsWire v).length) := by
  obtain ⟨h1, h2⟩ := holds_advance.mp h
  have hn : v.length < 2 ^ 64 := lt_of_le_of_lt v.length_le (by decide)
  have hloop := decodeLoop_of_holds RString.wire v.toList
    (fun _ _ _ hh => decodeString_of_holds hh) h2
  simp only [decodeStrings, decodeUsize, StateT.run_bind, decodeVarintOr_of_holds hn h1, ok_bind]
  simp only [Vec.length] at hloop ⊢
  simp only [withCapacity_run v.length_le, hloop, ok_bind, State.advance_advance,
    List.length_append, stringsWire, Vec.length]
  rfl

end GnostrCore.Oplog
