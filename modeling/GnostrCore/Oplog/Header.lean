import GnostrCore.Oplog.CompactEncoding

namespace GnostrCore.Oplog

open GnostrCore.Encoding hiding encodeU64 decodeU64 encodeUsize decodeUsize encodeBytes decodeBytes
  put get

/-- Modelled from the spec: an ed25519 public key is its 32 bytes (`fixed_32`), and `from_bytes`
refuses a slice of any other length. Whether the bytes decompress to a curve point is not
modelled. -/
structure PublicKey where
  bytes : Vec UInt8
  length_eq : bytes.length = 32
deriving DecidableEq

-- `SECRET_KEY_LENGTH`: an ed25519 secret key is 32 bytes
structure SecretKey where
  bytes : Vec UInt8
  length_eq : bytes.length = 32
deriving DecidableEq

def PublicKey.fromBytes (bs : Vec UInt8) : Option PublicKey :=
  if h : bs.length = 32 then some ⟨bs, h⟩ else none

def SecretKey.fromBytes (bs : Vec UInt8) : Option SecretKey :=
  if h : bs.length = 32 then some ⟨bs, h⟩ else none

-- `.unwrap()`: the value, or a panic
def unwrap : Option α → Decoder α
  | some a => pure a
  | none => throw unwrapFailed

structure HeaderTypes where
  tree : RString
  bitfield : RString
  signer : RString
deriving DecidableEq

structure HeaderTree where
  fork : UInt64
  length : UInt64
deriving DecidableEq

structure HeaderSigner where
  public_key : PublicKey
  secret_key : Option SecretKey
deriving DecidableEq

structure HeaderHints where
  reorgs : Vec RString
deriving DecidableEq

structure Header where
  types : HeaderTypes
  tree : HeaderTree
  signer : HeaderSigner
  hints : HeaderHints
  contiguous_length : UInt64
deriving DecidableEq

-- the bytes of a string literal
def utf8Of (s : String) : List UInt8 := s.data.flatMap String.utf8EncodeChar

-- `"...".to_string()`, its bytes checked where the literal is written
def RString.lit (s : String) (hlen : (utf8Of s).length ≤ ISIZE_MAX := by decide)
    (hvalid : utf8Valid (utf8Of s) = true := by decide) : RString :=
  ⟨⟨utf8Of s, hlen⟩, hvalid⟩

def Header.newFromKeys (public_key : PublicKey) (secret_key : Option SecretKey) : Header where
  types := { tree := .lit "blake2b", bitfield := .lit "raw", signer := .lit "ed25519" }
  tree := { fork := 0, length := 0 }
  signer := { public_key, secret_key }
  hints := { reorgs := ⟨[], Nat.zero_le _⟩ }
  contiguous_length := 0

-- `self.start += n` in a pre-encoding pass
def addStart (n : Nat) : Preencoder Unit := modify fun st => st.advance n

-- `self.start += n` in an encoding pass
def skip (n : Nat) : Encoder Unit := modify fun (st, buf) => (st.advance n, buf)

-- `buffer[i] = b`: indexing past the end panics
def setByte (i : Nat) (b : UInt8) : Encoder Unit := fun (st, buf) =>
  if i < buf.length then .ok ((), (st, buf.set i b)) else .error outOfBounds

-- `buffer[self.start] = b`
def setByteAtStart (b : UInt8) : Encoder Unit := fun s => setByte s.1.start b s

def preencodeHeaderTypes (value : HeaderTypes) : Preencoder Unit := do
  preencodeString value.tree
  preencodeString value.bitfield
  preencodeString value.signer

def encodeHeaderTypes (value : HeaderTypes) : Encoder Unit := do
  encodeString value.tree
  encodeString value.bitfield
  encodeString value.signer

def decodeHeaderTypes (buf : List UInt8) : Decoder HeaderTypes := do
  let tree ← decodeString buf
  let bitfield ← decodeString buf
  let signer ← decodeString buf
  pure { tree, bitfield, signer }

def preencodeHeaderTree (value : HeaderTree) : Preencoder Unit := do
  preencodeU64 value.fork
  preencodeU64 value.length

def encodeHeaderTree (value : HeaderTree) : Encoder Unit := do
  encodeU64 value.fork
  encodeU64 value.length

def decodeHeaderTree (buf : List UInt8) : Decoder HeaderTree := do
  let fork ← decodeU64 buf
  let length ← decodeU64 buf
  pure { fork, length }

-- Each key goes through `as_bytes().to_vec().into_boxed_slice()`, a `Box<[u8]>`.
def preencodeHeaderSigner (value : HeaderSigner) : Preencoder Unit := do
  preencodeBytes value.public_key.bytes
  match value.secret_key with
  | some secret_key => preencodeBytes secret_key.bytes
  | none => addEnd 1

def encodeHeaderSigner (value : HeaderSigner) : Encoder Unit := do
  encodeBytes value.public_key.bytes
  match value.secret_key with
  | some secret_key => encodeBytes secret_key.bytes
  | none => do
    setByteAtStart 0
    skip 1

-- The secret key is unwrapped before the public key, in the order of the source's lets.
def decodeHeaderSigner (buf : List UInt8) : Decoder HeaderSigner := do
  let public_key_bytes ← decodeBytes buf
  let secret_key_bytes ← decodeBytes buf
  let secret_key ← if secret_key_bytes.length = 0 then pure none
    else some <$> unwrap (SecretKey.fromBytes secret_key_bytes)
  let public_key ← unwrap (PublicKey.fromBytes public_key_bytes)
  pure { public_key, secret_key }

def preencodeHeaderHints (value : HeaderHints) : Preencoder Unit := preencodeStrings value.reorgs

def encodeHeaderHints (value : HeaderHints) : Encoder Unit := encodeStrings value.reorgs

def decodeHeaderHints (buf : List UInt8) : Decoder HeaderHints := do
  let reorgs ← decodeStrings buf
  pure { reorgs }

def preencodeHeader (value : Header) : Preencoder Unit := do
  addStart 1 -- Version
  preencodeHeaderTypes value.types
  preencodeHeaderTree value.tree
  preencodeHeaderSigner value.signer
  preencodeHeaderHints value.hints
  preencodeU64 value.contiguous_length

def encodeHeader (value : Header) : Encoder Unit := do
  setByte 0 0 -- Version
  skip 1
  encodeHeaderTypes value.types
  encodeHeaderTree value.tree
  encodeHeaderSigner value.signer
  encodeHeaderHints value.hints
  encodeU64 value.contiguous_length

def decodeHeader (buf : List UInt8) : Decoder Header := do
  let version ← decodeUsize buf
  if version ≠ 0 then
    throw (.panic ("Unknown oplog version " ++ toString version))
  let types ← decodeHeaderTypes buf
  let tree ← decodeHeaderTree buf
  let signer ← decodeHeaderSigner buf
  let hints ← decodeHeaderHints buf
  let contiguous_length ← decodeU64 buf
  pure { types, tree, signer, hints, contiguous_length }

theorem addStart_run (n : Nat) (st : State) : (addStart n).run st = .ok ((), st.advance n) := rfl

theorem skip_run (n : Nat) (st : State) (buf : List UInt8) :
    (skip n).run (st, buf) = .ok ((), (st.advance n, buf)) := rfl

theorem setByte_run {i : Nat} {buf : List UInt8} (b : UInt8) (st : State) (h : i < buf.length) :
    (setByte i b).run (st, buf) = .ok ((), (st, buf.set i b)) := by
  simp only [StateT.run, setByte, if_pos h]

-- the `None` branch of the signer's `encode` writes the byte at the cursor as `put` would
theorem setByteAtStart_skip (b : UInt8) :
    (do setByteAtStart b; skip 1 : Encoder Unit) = putOr outOfBounds [b] := by
  funext s
  rcases s with ⟨st, buf⟩
  by_cases h : st.start < buf.length
  · have hw : writeAt buf st.start [b] = buf.set st.start b := by
      rw [List.set_eq_take_append_cons_drop, if_pos h, writeAt, List.length_singleton,
        List.append_assoc, List.singleton_append]
    simp only [bind, StateT.bind, setByteAtStart, setByte, if_pos h, putOr, List.length_singleton,
      if_pos (Nat.succ_le_of_lt h), hw]
    rfl
  · simp only [bind, StateT.bind, setByteAtStart, setByte, if_neg h, putOr, List.length_singleton,
      if_neg (fun h' : st.start + 1 ≤ buf.length => h h')]
    rfl

theorem PublicKey.fromBytes_bytes (k : PublicKey) : PublicKey.fromBytes k.bytes = some k :=
  dif_pos k.length_eq

theorem SecretKey.fromBytes_bytes (k : SecretKey) : SecretKey.fromBytes k.bytes = some k :=
  dif_pos k.length_eq

end GnostrCore.Oplog
