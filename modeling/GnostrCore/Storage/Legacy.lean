import GnostrCore.Storage.Theorems

namespace GnostrCore

open Oplog (PublicKey SecretKey)
open Storage (StorageError read write HEADER_OFFSET)

-- Built without `v10`, `Storage` has a `signatures` and a `keypair` segment in place of `oplog`.
-- The functions below read and write only these two; `tree`, `data` and `bitfield` are those of
-- `Storage`.

structure LegacyStorage where
  signatures : List UInt8
  keypair : List UInt8

-- the `signature error` that ed25519's constructors return, which `?` hands on
def Storage.signatureError : StorageError := .message "signature error"

/-- Modelled from the spec: an ed25519 signature is its 64 bytes (`fixed_64`), and
`Signature::try_from` refuses a slice of any other length. Whether the bytes form a valid
signature is not modelled. -/
structure Signature where
  bytes : List UInt8
  length_eq : bytes.length = 64
deriving DecidableEq

def Signature.tryFrom (bytes : List UInt8) : Except StorageError Signature :=
  if h : bytes.length = 64 then pure ⟨bytes, h⟩ else throw Storage.signatureError

-- `PUBLIC_KEY_LENGTH` and `SECRET_KEY_LENGTH` of ed25519
def PUBLIC_KEY_LENGTH : Nat := 32
def SECRET_KEY_LENGTH : Nat := 32

/-- Modelled from the spec: `PublicKey::from_bytes` and `SecretKey::from_bytes` on the bytes
read are the key of those 32 bytes, and refuse a slice of any other length. -/
def keyBytes (buf : List UInt8) : Except StorageError {bytes : Encoding.Vec UInt8 // bytes.length = 32} :=
  if h : buf.length = 32 then pure ⟨⟨buf, by rw [h]; decide⟩, h⟩ else throw Storage.signatureError

-- `not_zeroes`: the loop returns `true` at the first byte that is not zero
def Storage.notZeroes (bytes : List UInt8) : Bool := bytes.any (· != 0)

namespace LegacyStorage

open Storage (notZeroes)

-- `next_signature`'s recursion, for at most `fuel` reads; `none` when it is still searching
def nextSignature (s : LegacyStorage) :
    (fuel : Nat) → (index : UInt64) → Option (Except StorageError Signature)
  | 0, _ => none
  | fuel + 1, index =>
    match read s.signatures (HEADER_OFFSET + 64 * index).toNat 64 with
    | .error e => some (.error e)
    | .ok bytes =>
      if notZeroes bytes then some (Signature.tryFrom bytes)
      else nextSignature s fuel (index + 1)

def getSignature (s : LegacyStorage) (index : UInt64) : Except StorageError Signature := do
  let bytes ← read s.signatures (HEADER_OFFSET + 64 * index).toNat 64
  if !notZeroes bytes then throw (.message "No signature found")
  Signature.tryFrom bytes

def putSignature (s : LegacyStorage) (index : UInt64) (signature : Signature) : LegacyStorage :=
  { s with signatures := write s.signatures (HEADER_OFFSET + 64 * index).toNat signature.bytes }

def readPublicKey (s : LegacyStorage) : Except StorageError PublicKey := do
  let buf ← read s.keypair 0 PUBLIC_KEY_LENGTH
  let public_key ← keyBytes buf
  pure ⟨public_key.1, public_key.2⟩

def readSecretKey (s : LegacyStorage) : Except StorageError SecretKey := do
  let buf ← read s.keypair PUBLIC_KEY_LENGTH SECRET_KEY_LENGTH
  let secret_key ← keyBytes buf
  pure ⟨secret_key.1, secret_key.2⟩

def writePublicKey (s : LegacyStorage) (public_key : PublicKey) : LegacyStorage :=
  { s with keypair := write s.keypair 0 public_key.bytes.toList }

def writeSecretKey (s : LegacyStorage) (secret_key : SecretKey) : LegacyStorage :=
  { s with keypair := write s.keypair PUBLIC_KEY_LENGTH secret_key.bytes.toList }

def readPartialKeypair (s : LegacyStorage) : Option PartialKeypair :=
  match s.readPublicKey with
  | .ok public =>
    match s.readSecretKey with
    | .ok secret => some { public, secret := some secret }
    | .error _ => some { public, secret := none }
  | .error _ => none

open Storage (read_ok read_error read_of_le read_of_lt read_write_self read_write_disjoint read_write_below length_write
  HEADER_OFFSET_toNat)
open Encoding (UInt64.size_eq)

theorem notZeroes_eq_false {bytes : List UInt8} : notZeroes bytes = false ↔ ∀ b ∈ bytes, b = 0 := by
  simp [notZeroes]

theorem tryFrom_of_length {bytes : List UInt8} (h : bytes.length = 64) :
    Signature.tryFrom bytes = .ok ⟨bytes, h⟩ :=
  dif_pos h

-- `try_from` fails, if at all, with the crate's error, never with the text of `ensure!`.
theorem tryFrom_ne_missing (bytes : List UInt8) :
    Signature.tryFrom bytes ≠ .error (.message "No signature found") := by
  unfold Signature.tryFrom
  split
  · nofun
  · show Except.error Storage.signatureError ≠ _
    simp [Storage.signatureError]

theorem signatureOffset_toNat {index : UInt64} (h : index.toNat < 2 ^ 58) :
    (HEADER_OFFSET + 64 * index).toNat = 32 + 64 * index.toNat := by
  simp (disch := omega) only [UInt64.toNat_add, UInt64.toNat_mul, UInt64.size_eq, HEADER_OFFSET_toNat,
    show (64 : UInt64).toNat = 64 from rfl, Nat.mod_eq_of_lt]

theorem offset_succ (index : UInt64) :
    HEADER_OFFSET + 64 * (index + 1) = HEADER_OFFSET + 64 * index + 64 := by
  rw [mul_add, mul_one, add_assoc]

theorem add_ofNat_succ (index : UInt64) (m : Nat) :
    index + UInt64.ofNat (m + 1) = index + 1 + UInt64.ofNat m := by
  rw [Encoding.UInt64.ofNat_add, UInt64.ofNat_one, add_comm (UInt64.ofNat m), add_assoc]

theorem add_ofNat_zero (index : UInt64) : index + UInt64.ofNat 0 = index := by
  rw [Encoding.UInt64.ofNat_zero, add_zero]

section Record

variable {s : LegacyStorage} {index : UInt64}

theorem getSignature_error {e : StorageError}
    (h : read s.signatures (HEADER_OFFSET + 64 * index).toNat 64 = .error e) :
    s.getSignature index = .error e := by
  simp only [getSignature, h, Encoding.error_bind]

theorem getSignature_missing {bytes : List UInt8}
    (h : read s.signatures (HEADER_OFFSET + 64 * index).toNat 64 = .ok bytes)
    (hb : notZeroes bytes = false) : s.getSignature index = .error (.message "No signature found") := by
  simp only [getSignature, h, hb, Encoding.ok_bind, Bool.not_false, if_true]
  rfl

theorem getSignature_present {bytes : List UInt8}
    (h : read s.signatures (HEADER_OFFSET + 64 * index).toNat 64 = .ok bytes)
    (hb : notZeroes bytes = true) : s.getSignature index = Signature.tryFrom bytes := by
  simp only [getSignature, h, hb, Encoding.ok_bind, Bool.not_true, Bool.false_eq_true, if_false]
  rfl

theorem nextSignature_zero : s.nextSignature 0 index = none := rfl

variable {fuel : Nat}

theorem nextSignature_error {e : StorageError}
    (h : read s.signatures (HEADER_OFFSET + 64 * index).toNat 64 = .error e) :
    s.nextSignature (fuel + 1) index = some (.error e) := by
  simp only [nextSignature, h]

theorem nextSignature_found {bytes : List UInt8}
    (h : read s.signatures (HEADER_OFFSET + 64 * index).toNat 64 = .ok bytes)
    (hb : notZeroes bytes = true) : s.nextSignature (fuel + 1) index = some (Signature.tryFrom bytes) := by
  simp only [nextSignature, h, hb, if_true]

theorem nextSignature_skip {bytes : List UInt8}
    (h : read s.signatures (HEADER_OFFSET + 64 * index).toNat 64 = .ok bytes)
    (hb : notZeroes bytes = false) : s.nextSignature (fuel + 1) index = s.nextSignature fuel (index + 1) := by
  simp only [nextSignature, h, hb, Bool.false_eq_true, if_false]

end Record

-- a header, a zeroed record and a record of ones
def zeroThenOnes : LegacyStorage := ⟨List.replicate 96 0 ++ List.replicate 64 1, []⟩

-- the signature of 64 bytes of one
def onesSignature : Signature := ⟨List.replicate 64 1, List.length_replicate 64 1⟩

-- A signature reads back from its record, wherever the record lies; one of only zero bytes reads
-- back as missing.
theorem getSignature_putSignature (s : LegacyStorage) (index : UInt64) (sig : Signature) :
    (s.putSignature index sig).getSignature index =
      if notZeroes sig.bytes then .ok sig else .error (.message "No signature found") := by
  have h : read (s.putSignature index sig).signatures (HEADER_OFFSET + 64 * index).toNat 64 =
      .ok sig.bytes := by
    rw [putSignature, ← sig.length_eq]
    exact read_write_self _ _ _
  cases hb : notZeroes sig.bytes
  · exact getSignature_missing h hb
  · rw [getSignature_present h hb, tryFrom_of_length sig.length_eq]
    rfl

-- `get_signature` sees a record only through its one read.
theorem getSignature_of_read_eq {s s' : LegacyStorage} {index index' : UInt64}
    (h : read s'.signatures (HEADER_OFFSET + 64 * index').toNat 64 =
      read s.signatures (HEADER_OFFSET + 64 * index).toNat 64) :
    s'.getSignature index' = s.getSignature index := by
  simp only [getSignature, h]

-- `put_signature` leaves every other record the segment held, as long as no offset wraps.
theorem getSignature_putSignature_ne {s : LegacyStorage} {i j : UInt64} (sig : Signature)
    (hi : i.toNat < 2 ^ 58) (hj : j.toNat < 2 ^ 58) (hij : i ≠ j)
    (hin : 32 + 64 * i.toNat + 64 ≤ s.signatures.length) :
    (s.putSignature j sig).getSignature i = s.getSignature i := by
  have hne : i.toNat ≠ j.toNat := fun h => hij (UInt64.toNat.inj h)
  have hlen : sig.bytes.length = 64 := sig.length_eq
  apply getSignature_of_read_eq
  rw [putSignature, signatureOffset_toNat hi, signatureOffset_toNat hj, read_of_le hin]
  exact read_write_disjoint (read_of_le hin) (by rw [hlen]; omega)

theorem getSignature_putSignature_other_record :
    (0 : UInt64).toNat < 2 ^ 58 ∧ (1 : UInt64).toNat < 2 ^ 58 ∧ (0 : UInt64) ≠ 1 ∧
      32 + 64 * (0 : UInt64).toNat + 64 ≤ zeroThenOnes.signatures.length ∧
      (zeroThenOnes.putSignature 1 onesSignature).getSignature 0 = zeroThenOnes.getSignature 0 :=
  have hlen : zeroThenOnes.signatures.length = 160 := by simp [zeroThenOnes]
  ⟨by decide, by decide, by decide, by rw [hlen]; decide,
    getSignature_putSignature_ne onesSignature (by decide) (by decide) (by decide) (by rw [hlen]; decide)⟩

section Search

variable {s : LegacyStorage}

-- The search returns what `get_signature` returns at the first record it does not report
-- missing, after records it reports missing.
theorem nextSignature_eq_some : ∀ {fuel : Nat} {index : UInt64} {r : Except StorageError Signature},
    s.nextSignature fuel index = some r →
      ∃ k < fuel, (∀ m < k, s.getSignature (index + UInt64.ofNat m) =
          .error (.message "No signature found")) ∧
        s.getSignature (index + UInt64.ofNat k) = r ∧ r ≠ .error (.message "No signature found") := by
  intro fuel
  induction fuel with
  | zero => intro index r h; cases h
  | succ fuel ih =>
    intro index r h
    cases hr : read s.signatures (HEADER_OFFSET + 64 * index).toNat 64 with
    | error e =>
      rw [nextSignature_error hr] at h
      cases h
      refine ⟨0, Nat.succ_pos _, nofun, by rw [add_ofNat_zero, getSignature_error hr], ?_⟩
      rw [read_error hr]
      nofun
    | ok bytes =>
      cases hb : notZeroes bytes
      · rw [nextSignature_skip hr hb] at h
        obtain ⟨k, hk, hmiss, hget, hne⟩ := ih h
        refine ⟨k + 1, by omega, fun m hm => ?_, by rw [add_ofNat_succ]; exact hget, hne⟩
        cases m with
        | zero => rw [add_ofNat_zero]; exact getSignature_missing hr hb
        | succ m => rw [add_ofNat_succ]; exact hmiss m (by omega)
      · rw [nextSignature_found hr hb] at h
        cases h
        exact ⟨0, Nat.succ_pos _, nofun, by rw [add_ofNat_zero, getSignature_present hr hb],
          tryFrom_ne_missing bytes⟩

-- Every record the search skips lies inside the segment, and the next one 64 bytes on, so
-- one read more than the records left is enough.
theorem nextSignature_isSome (hlen : s.signatures.length < 2 ^ 64) :
    ∀ {fuel : Nat} {index : UInt64},
      (s.signatures.length - (HEADER_OFFSET + 64 * index).toNat) / 64 < fuel →
        (s.nextSignature fuel index).isSome := by
  intro fuel
  induction fuel with
  | zero => intro index h; omega
  | succ fuel ih =>
    intro index hfuel
    cases hr : read s.signatures (HEADER_OFFSET + 64 * index).toNat 64 with
    | error e => rw [nextSignature_error hr]; rfl
    | ok bytes =>
      cases hb : notZeroes bytes
      · have hin := (read_ok hr).1
        have hnext : (HEADER_OFFSET + 64 * (index + 1)).toNat =
            (HEADER_OFFSET + 64 * index).toNat + 64 := by
          rw [offset_succ, UInt64.toNat_add, UInt64.size_eq, show (64 : UInt64).toNat = 64 from rfl,
            Nat.mod_eq_of_lt (by omega)]
        rw [nextSignature_skip hr hb]
        exact ih (by rw [hnext]; omega)
      · rw [nextSignature_found hr hb]; rfl

-- `next_signature` returns within one read more than the records of the segment, with what
-- `get_signature` returns at the first record from `index` on that it does not report missing.
theorem nextSignature_first_present (hlen : s.signatures.length < 2 ^ 64) (index : UInt64)
    {fuel : Nat} (hfuel : s.signatures.length / 64 < fuel) :
    ∃ k < fuel, (∀ m < k, s.getSignature (index + UInt64.ofNat m) =
        .error (.message "No signature found")) ∧
      s.getSignature (index + UInt64.ofNat k) ≠ .error (.message "No signature found") ∧
      s.nextSignature fuel index = some (s.getSignature (index + UInt64.ofNat k)) := by
  obtain ⟨r, hr⟩ := Option.isSome_iff_exists.mp (@nextSignature_isSome s hlen fuel index (by omega))
  obtain ⟨k, hk, hmiss, hget, hne⟩ := nextSignature_eq_some hr
  exact ⟨k, hk, hmiss, by rw [hget]; exact hne, by rw [hget]; exact hr⟩

theorem nextSignature_skips_zeroed_record :
    zeroThenOnes.signatures.length < 2 ^ 64 ∧ zeroThenOnes.signatures.length / 64 < 3 ∧
    ∃ k < 3, (∀ m < k, zeroThenOnes.getSignature (0 + UInt64.ofNat m) =
        .error (.message "No signature found")) ∧
      zeroThenOnes.getSignature (0 + UInt64.ofNat k) ≠ .error (.message "No signature found") ∧
      zeroThenOnes.nextSignature 3 0 = some (zeroThenOnes.getSignature (0 + UInt64.ofNat k)) :=
  have hlen : zeroThenOnes.signatures.length = 160 := by simp [zeroThenOnes]
  ⟨by omega, by omega, nextSignature_first_present (by omega) 0 (by omega)⟩

end Search

-- `64 * 2^58` is `2^64`: record `index + 2^58` is record `index`, to a read and to the search.
theorem signature_index_wraps (s : LegacyStorage) (index : UInt64) :
    s.getSignature (index + 2 ^ 58) = s.getSignature index ∧
      ∀ fuel, s.nextSignature fuel (index + 2 ^ 58) = s.nextSignature fuel index := by
  have hoff : ∀ i : UInt64, HEADER_OFFSET + 64 * (i + 2 ^ 58) = HEADER_OFFSET + 64 * i := fun i => by
    rw [mul_add, show (64 : UInt64) * 2 ^ 58 = 0 by decide, add_zero]
  refine ⟨getSignature_of_read_eq (by rw [hoff]), fun fuel => ?_⟩
  induction fuel generalizing index with
  | zero => rw [nextSignature_zero, nextSignature_zero]
  | succ fuel ih =>
    have hread := hoff index
    cases hr : read s.signatures (HEADER_OFFSET + 64 * index).toNat 64 with
    | error e => rw [nextSignature_error (by rw [hread]; exact hr), nextSignature_error hr]
    | ok bytes =>
      cases hb : notZeroes bytes
      · rw [nextSignature_skip (by rw [hread]; exact hr) hb, nextSignature_skip hr hb, add_right_comm,
          ih]
      · rw [nextSignature_found (by rw [hread]; exact hr) hb, nextSignature_found hr hb]

-- Below the record a write lands on, a segment holding only zeros from `p` on reads as zeros:
-- the bytes it held, then the zeros the write grew it with.
theorem read_zero_below (seg data : List UInt8) {p offset : Nat} (h : p + 64 ≤ offset)
    (hzero : ∀ b ∈ seg.drop p, b = 0) :
    ∃ bytes, read (write seg offset data) p 64 = .ok bytes ∧ notZeroes bytes = false := by
  refine ⟨_, read_write_below seg data h, notZeroes_eq_false.mpr fun b hb => ?_⟩
  rw [List.drop_append_eq_append_drop] at hb
  rcases List.mem_append.mp (List.mem_of_mem_take hb) with hb | hb
  · exact hzero b hb
  · exact List.eq_of_mem_replicate (List.mem_of_mem_drop hb)

-- A signature put at `j` is what a search from any `i ≤ j` finds, when the segment held only
-- zeros from record `i` on: the records in between, zeroed or grown by the write, are skipped.
theorem nextSignature_putSignature {s : LegacyStorage} {i j : UInt64} {sig : Signature}
    (hsig : notZeroes sig.bytes = true) (hij : i ≤ j) (hj : j.toNat < 2 ^ 58)
    (hzero : ∀ b ∈ s.signatures.drop (32 + 64 * i.toNat), b = 0) {fuel : Nat}
    (hfuel : j.toNat - i.toNat < fuel) :
    (s.putSignature j sig).nextSignature fuel i = some (.ok sig) := by
  have hput : (s.putSignature j sig).signatures = write s.signatures (32 + 64 * j.toNat) sig.bytes := by
    rw [putSignature, signatureOffset_toNat hj]
  induction fuel generalizing i with
  | zero => omega
  | succ fuel ih =>
    have hle : i.toNat ≤ j.toNat := (Encoding.UInt64.le_iff_toNat_le i j).mp hij
    have hi : i.toNat < 2 ^ 58 := by omega
    rcases Nat.lt_or_eq_of_le hle with hlt | heq
    · obtain ⟨bytes, hr, hb⟩ :=
        read_zero_below s.signatures sig.bytes (show 32 + 64 * i.toNat + 64 ≤ 32 + 64 * j.toNat by omega) hzero
      have hsucc : (i + 1).toNat = i.toNat + 1 := by
        rw [UInt64.toNat_add, UInt64.size_eq, show (1 : UInt64).toNat = 1 from rfl, Nat.mod_eq_of_lt (by omega)]
      rw [nextSignature_skip (by rw [hput, signatureOffset_toNat hi]; exact hr) hb]
      refine ih ((Encoding.UInt64.le_iff_toNat_le _ _).mpr (by omega)) (fun b hb => hzero b ?_) (by omega)
      rw [hsucc] at hb
      exact (List.drop_sublist_drop_left _ (by omega)).subset hb
    · have hr : read (s.putSignature j sig).signatures (HEADER_OFFSET + 64 * i).toNat 64 =
          .ok sig.bytes := by
        rw [UInt64.toNat.inj heq, putSignature, ← sig.length_eq]
        exact read_write_self _ _ _
      rw [nextSignature_found hr hsig, tryFrom_of_length sig.length_eq]

-- Into a segment of only its header, a signature put at record 2 is found from record 0.
theorem nextSignature_putSignature_past_gap :
    notZeroes onesSignature.bytes = true ∧ (0 : UInt64) ≤ 2 ∧ (2 : UInt64).toNat < 2 ^ 58 ∧
      (∀ b ∈ (List.replicate 32 (0 : UInt8)).drop (32 + 64 * (0 : UInt64).toNat), b = 0) ∧
      (2 : UInt64).toNat - (0 : UInt64).toNat < 3 ∧
      (LegacyStorage.putSignature ⟨List.replicate 32 0, []⟩ 2 onesSignature).nextSignature 3 0 =
        some (.ok onesSignature) :=
  ⟨rfl, by decide, by decide, by simp, by decide,
    @nextSignature_putSignature ⟨List.replicate 32 0, []⟩ 0 2 onesSignature rfl (by decide) (by decide)
      (by simp) 3 (by decide)⟩

theorem keyBytes_toList (bytes : Encoding.Vec UInt8) (h : bytes.length = 32) :
    keyBytes bytes.toList = .ok ⟨bytes, h⟩ :=
  dif_pos h

theorem read_key_self (seg : List UInt8) (offset : Nat) (bytes : Encoding.Vec UInt8)
    (h : bytes.length = 32) : read (write seg offset bytes.toList) offset 32 = .ok bytes.toList := by
  have h' : bytes.toList.length = 32 := h
  exact h' ▸ read_write_self seg bytes.toList offset

section Keys

variable {s : LegacyStorage} {public_key : PublicKey} {secret_key : SecretKey}

theorem readPublicKey_of_read (h : read s.keypair 0 32 = .ok public_key.bytes.toList) :
    s.readPublicKey = .ok public_key := by
  simp only [readPublicKey, PUBLIC_KEY_LENGTH, h, Encoding.ok_bind,
    keyBytes_toList _ public_key.length_eq]
  rfl

theorem readSecretKey_of_read (h : read s.keypair 32 32 = .ok secret_key.bytes.toList) :
    s.readSecretKey = .ok secret_key := by
  simp only [readSecretKey, PUBLIC_KEY_LENGTH, SECRET_KEY_LENGTH, h, Encoding.ok_bind,
    keyBytes_toList _ secret_key.length_eq]
  rfl

theorem readSecretKey_short (h : s.keypair.length < 64) : s.readSecretKey = .error .backend := by
  simp only [readSecretKey, PUBLIC_KEY_LENGTH, SECRET_KEY_LENGTH, read_of_lt (show s.keypair.length < 32 + 32 from h), Encoding.error_bind]

theorem readPartialKeypair_of_keys (hp : s.readPublicKey = .ok public_key)
    (hs : s.readSecretKey = .ok secret_key) :
    s.readPartialKeypair = some ⟨public_key, some secret_key⟩ := by
  simp only [readPartialKeypair, hp, hs]

theorem readPartialKeypair_of_public {e : StorageError} (hp : s.readPublicKey = .ok public_key)
    (hs : s.readSecretKey = .error e) : s.readPartialKeypair = some ⟨public_key, none⟩ := by
  simp only [readPartialKeypair, hp, hs]

end Keys

-- Both keys read back, in whichever order they were written and whatever the segment held.
theorem readPartialKeypair_writeKeys (s : LegacyStorage) (public_key : PublicKey)
    (secret_key : SecretKey) :
    ((s.writePublicKey public_key).writeSecretKey secret_key).readPartialKeypair =
        some ⟨public_key, some secret_key⟩ ∧
      ((s.writeSecretKey secret_key).writePublicKey public_key).readPartialKeypair =
        some ⟨public_key, some secret_key⟩ := by
  have hp := read_key_self s.keypair 0 public_key.bytes public_key.length_eq
  have hs := read_key_self s.keypair 32 secret_key.bytes secret_key.length_eq
  have hlen : public_key.bytes.toList.length = 32 := public_key.length_eq
  exact ⟨readPartialKeypair_of_keys (readPublicKey_of_read (read_write_disjoint hp (.inl le_rfl)))
      (readSecretKey_of_read (read_key_self _ 32 _ secret_key.length_eq)),
    readPartialKeypair_of_keys (readPublicKey_of_read (read_key_self _ 0 _ public_key.length_eq))
      (readSecretKey_of_read (read_write_disjoint hs (.inr (by rw [hlen]))))⟩

-- A public key written alone, into a segment that held no more than one, reads back without a
-- secret key.
theorem readPartialKeypair_public_only (s : LegacyStorage) (public_key : PublicKey)
    (hs : s.keypair.length ≤ PUBLIC_KEY_LENGTH) :
    (s.writePublicKey public_key).readPartialKeypair = some ⟨public_key, none⟩ := by
  have hlen : (s.writePublicKey public_key).keypair.length < 64 := by
    have h : public_key.bytes.toList.length = 32 := public_key.length_eq
    simp only [writePublicKey, length_write, h]
    simp only [PUBLIC_KEY_LENGTH] at hs
    omega
  exact readPartialKeypair_of_public (readPublicKey_of_read (read_key_self _ 0 _ public_key.length_eq))
    (readSecretKey_short hlen)

-- the public key of 32 zero bytes
def zeroPublicKey : PublicKey := ⟨⟨List.replicate 32 0, by decide⟩, rfl⟩

theorem readPartialKeypair_public_only_empty :
    ([] : List UInt8).length ≤ PUBLIC_KEY_LENGTH ∧
      (LegacyStorage.writePublicKey ⟨[], []⟩ zeroPublicKey).readPartialKeypair =
        some ⟨zeroPublicKey, none⟩ :=
  ⟨by decide, readPartialKeypair_public_only ⟨[], []⟩ zeroPublicKey (by decide)⟩

end LegacyStorage

end GnostrCore
