import GnostrCore.Encoding.Bytes

namespace GnostrCore.Storage

open GnostrCore.Encoding

-- How a storage call ends when it does not succeed: an error of a segment's backend, handed on
-- by `anyhow!(e)`; an `anyhow!` or `ensure!` error with a text of its own; or a panic.
inductive StorageError where
  | backend
  | message (text : String)
  | panic (message : String)
deriving Repr, DecidableEq

/-- Modelled from the spec: a segment as the in-memory backend holds it, a byte array.
`read(offset, len)` fails when the range runs past the end. -/
def read (seg : List UInt8) (offset len : Nat) : Except StorageError (List UInt8) :=
  match readAt seg offset len with
  | some bs => .ok bs
  | none => .error .backend

/-- Modelled from the spec: `write(offset, bytes)` of the in-memory backend, which first fills
any gap before `offset` with zeros. -/
def write (seg : List UInt8) (offset : Nat) (data : List UInt8) : List UInt8 :=
  writeAt (seg ++ List.replicate (offset + data.length - seg.length) 0) offset data

-- the array a write works on, grown with zeros to hold the written range
private theorem length_grown (seg data : List UInt8) (offset : Nat) :
    (seg ++ List.replicate (offset + data.length - seg.length) 0).length =
      max seg.length (offset + data.length) := by
  simp only [List.length_append, List.length_replicate]
  omega

theorem length_write (seg data : List UInt8) (offset : Nat) :
    (write seg offset data).length = max seg.length (offset + data.length) := by
  rw [write, length_writeAt (by rw [length_grown]; omega), length_grown]

theorem read_of_holds {seg bs : List UInt8} {offset : Nat} (h : Holds seg offset bs) :
    read seg offset bs.length = .ok bs := by
  simp only [read, readAt_of_holds h]

theorem read_of_le {seg : List UInt8} {offset len : Nat} (h : offset + len ≤ seg.length) :
    read seg offset len = .ok ((seg.drop offset).take len) := by
  simp only [read, readAt, if_pos h]

theorem read_of_lt {seg : List UInt8} {offset len : Nat} (h : seg.length < offset + len) :
    read seg offset len = .error .backend := by
  simp only [read, readAt, if_neg (Nat.not_le.mpr h)]

theorem read_ok {seg bs : List UInt8} {offset len : Nat} (h : read seg offset len = .ok bs) :
    offset + len ≤ seg.length ∧ bs.length = len := by
  unfold read at h
  split at h
  · cases h
    exact readAt_le ‹_›
  · cases h

-- The backend fails in one way only.
theorem read_error {seg : List UInt8} {offset len : Nat} {e : StorageError}
    (h : read seg offset len = .error e) : e = .backend := by
  unfold read at h
  split at h <;> cases h
  rfl

theorem read_write_self (seg data : List UInt8) (offset : Nat) :
    read (write seg offset data) offset data.length = .ok data :=
  read_of_holds (holds_writeAt (by rw [length_grown]; omega))

-- Two arrays that agree on a range give the same read of it.
theorem readAt_congr {b b' : List UInt8} {p n : Nat} (hb : p + n ≤ b.length)
    (hb' : p + n ≤ b'.length) (h : ∀ i, p ≤ i → i < p + n → b'[i]? = b[i]?) :
    readAt b' p n = readAt b p n := by
  simp only [readAt, if_pos hb, if_pos hb']
  congr 1
  apply List.ext_getElem?
  intro i
  simp only [List.getElem?_take, List.getElem?_drop]
  split_ifs with hi
  · exact h _ (by omega) (by omega)
  · rfl

-- A write leaves every range that lay inside the array and outside the written bytes.
theorem read_write_disjoint {seg data bs : List UInt8} {offset offset' len : Nat}
    (h : read seg offset' len = .ok bs) (hd : offset' + len ≤ offset ∨ offset + data.length ≤ offset') :
    read (write seg offset data) offset' len = .ok bs := by
  obtain ⟨hlen, -⟩ := read_ok h
  have hw : offset + data.length ≤ (seg ++ List.replicate (offset + data.length - seg.length) 0).length := by
    rw [length_grown]; omega
  have hframe := frame_writeAt hw
  have hagree : readAt (write seg offset data) offset' len = readAt seg offset' len := by
    refine readAt_congr hlen (by rw [length_write]; omega) fun i hi hi' => ?_
    rw [write, hframe.2 i (by omega), List.getElem?_append_left (by omega)]
  simpa only [read, hagree] using h

-- Below the written bytes, a write shows the array it worked on: the segment, then the zeros it
-- was grown with.
theorem read_write_below (seg data : List UInt8) {offset p n : Nat} (h : p + n ≤ offset) :
    read (write seg offset data) p n =
      .ok (((seg ++ List.replicate (offset + data.length - seg.length) 0).drop p).take n) := by
  have hw : offset + data.length ≤ (seg ++ List.replicate (offset + data.length - seg.length) 0).length := by
    rw [length_grown]; omega
  have hagree : readAt (write seg offset data) p n =
      readAt (seg ++ List.replicate (offset + data.length - seg.length) 0) p n :=
    readAt_congr (by omega) (by rw [length_write]; omega) fun i _ hi =>
      (frame_writeAt hw).2 i (.inl (by omega))
  rw [← read_of_le (by omega), read, hagree]
  rfl

-- Above the written bytes, a read of the grown array is the read of the segment: both fail
-- where the segment ended.
theorem read_write_above (seg data : List UInt8) {offset p n : Nat} (h : offset + data.length ≤ p)
    (hn : 0 < n) : read (write seg offset data) p n = read seg p n := by
  by_cases hp : p + n ≤ seg.length
  · rw [read_write_disjoint (read_of_le hp) (.inr h), read_of_le hp]
  · have hw : (write seg offset data).length < p + n := by rw [length_write]; omega
    rw [read_of_lt hw, read_of_lt (by omega)]

-- Writing into an empty segment from offset 0 leaves exactly the written bytes.
theorem write_nil (data : List UInt8) : write [] 0 data = data := by
  simp [write, writeAt]

end GnostrCore.Storage
