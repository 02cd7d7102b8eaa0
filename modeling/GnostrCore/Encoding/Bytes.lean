import Mathlib

namespace GnostrCore.Encoding

-- `isize::MAX`: no allocation, and so no `Vec`, spans more bytes than this
def ISIZE_MAX : Nat := 2 ^ 63 - 1

-- `usize::MAX`: a cursor position of the crate's `State` is a `usize`
def USIZE_MAX : Nat := 2 ^ 64 - 1

-- Rust's `Vec<T>` (also `String`'s and `Box<[u8]>`'s bytes). Every element takes at
-- least one byte, so a vector never holds more than `isize::MAX` of them.
structure Vec (α : Type) where
  toList : List α
  length_le : toList.length ≤ ISIZE_MAX
deriving DecidableEq

def Vec.length (v : Vec α) : Nat := v.toList.length

-- The bytes `bs` sit at position `p` of `buf`.
def Holds (buf : List UInt8) (p : Nat) (bs : List UInt8) : Prop :=
  p + bs.length ≤ buf.length ∧ (buf.drop p).take bs.length = bs

-- `buf[p..p + bs.len()].copy_from_slice(bs)`, called once the bounds are checked.
def writeAt (buf : List UInt8) (p : Nat) (bs : List UInt8) : List UInt8 :=
  buf.take p ++ bs ++ buf.drop (p + bs.length)

-- `n` bytes of `buf` from `p`, when the buffer has them.
def readAt (buf : List UInt8) (p n : Nat) : Option (List UInt8) :=
  if p + n ≤ buf.length then some ((buf.drop p).take n) else none

-- Only the bytes in `[lo, hi)` may differ, and the length stays.
def Frame (buf buf' : List UInt8) (lo hi : Nat) : Prop :=
  buf'.length = buf.length ∧ ∀ i, (i < lo ∨ hi ≤ i) → buf'[i]? = buf[i]?

theorem holds_append {buf a b : List UInt8} {p : Nat} :
    Holds buf p (a ++ b) ↔ Holds buf p a ∧ Holds buf (p + a.length) b := by
  unfold Holds
  rw [List.length_append, List.take_add, List.drop_drop]
  constructor
  · rintro ⟨hle, h⟩
    have hlen : ((buf.drop p).take a.length).length = a.length := by
      simp only [List.length_take, List.length_drop]
      omega
    obtain ⟨ha, hb⟩ := List.append_inj h hlen
    exact ⟨⟨by omega, ha⟩, ⟨by omega, hb⟩⟩
  · rintro ⟨⟨_, ha⟩, ⟨hle, hb⟩⟩
    exact ⟨by omega, by rw [ha, hb]⟩

theorem holds_cons {buf bs : List UInt8} {p : Nat} {x : UInt8} :
    Holds buf p (x :: bs) ↔ buf[p]? = some x ∧ Holds buf (p + 1) bs := by
  rw [← List.singleton_append, holds_append]
  have : Holds buf p [x] ↔ buf[p]? = some x := by
    simp only [Holds, List.length_singleton]
    constructor
    · rintro ⟨hle, h⟩
      have := congrArg (·[0]?) h
      simpa [List.getElem?_take, List.getElem?_drop] using this
    · intro h
      have hp : p < buf.length := (List.getElem?_eq_some_iff.mp h).1
      refine ⟨hp, ?_⟩
      rw [List.take_one, List.head?_drop, h]
      rfl
  rw [this, List.length_singleton]

theorem holds_middle (pre bs rest : List UInt8) : Holds (pre ++ bs ++ rest) pre.length bs := by
  refine ⟨by simp, ?_⟩
  rw [List.append_assoc, List.drop_left' rfl, List.take_left' rfl]

theorem readAt_of_holds {buf bs : List UInt8} {p : Nat} (h : Holds buf p bs) :
    readAt buf p bs.length = some bs := by
  simp only [readAt, if_pos h.1]
  exact congrArg some h.2

theorem readAt_le {buf bs : List UInt8} {p n : Nat} (h : readAt buf p n = some bs) :
    p + n ≤ buf.length ∧ bs.length = n := by
  unfold readAt at h
  split at h
  · cases h
    simp only [List.length_take, List.length_drop]
    omega
  · cases h

theorem length_writeAt {buf bs : List UInt8} {p : Nat} (h : p + bs.length ≤ buf.length) :
    (writeAt buf p bs).length = buf.length := by
  simp only [writeAt, List.length_append, List.length_take, List.length_drop]
  omega

theorem holds_writeAt {buf bs : List UInt8} {p : Nat} (h : p + bs.length ≤ buf.length) :
    Holds (writeAt buf p bs) p bs := by
  have hp : (buf.take p).length = p := by simp only [List.length_take]; omega
  refine ⟨by rw [length_writeAt h]; exact h, ?_⟩
  simp only [writeAt, List.append_assoc, List.drop_left' hp, List.take_left' rfl]

theorem frame_writeAt {buf bs : List UInt8} {p : Nat} (h : p + bs.length ≤ buf.length) :
    Frame buf (writeAt buf p bs) p (p + bs.length) := by
  refine ⟨length_writeAt h, fun i hi => ?_⟩
  have hp : (buf.take p).length = p := by simp only [List.length_take]; omega
  simp only [writeAt, List.append_assoc]
  rcases hi with hi | hi
  · rw [List.getElem?_append_left (by omega), List.getElem?_take, if_pos hi]
  · rw [List.getElem?_append_right (by omega), List.getElem?_append_right (by omega),
      List.getElem?_drop]
    congr 1
    omega

-- `buf[i] = b` changes byte `i` alone.
theorem frame_set (buf : List UInt8) (i : Nat) (b : UInt8) : Frame buf (buf.set i b) i (i + 1) :=
  ⟨List.length_set .., fun _ hj => List.getElem?_set_ne (by omega)⟩

theorem Frame.refl (buf : List UInt8) (lo hi : Nat) : Frame buf buf lo hi :=
  ⟨rfl, fun _ _ => rfl⟩

theorem Frame.trans {b₁ b₂ b₃ : List UInt8} {lo mid hi : Nat} (h₁ : Frame b₁ b₂ lo mid)
    (h₂ : Frame b₂ b₃ mid hi) (hlo : lo ≤ mid) (hhi : mid ≤ hi) : Frame b₁ b₃ lo hi :=
  ⟨h₂.1.trans h₁.1, fun i hi' => by
    rw [h₂.2 i (by omega), h₁.2 i (by omega)]⟩

-- Writing `a` then `b` right after it is writing `a ++ b`.
theorem writeAt_append {buf a b : List UInt8} {p : Nat}
    (h : p + (a ++ b).length ≤ buf.length) :
    writeAt (writeAt buf p a) (p + a.length) b = writeAt buf p (a ++ b) := by
  simp only [List.length_append] at h
  have hL : (buf.take p ++ a).length = p + a.length := by
    simp only [List.length_append, List.length_take]
    omega
  have hdrop : List.drop (p + a.length + b.length) (buf.take p ++ a ++ buf.drop (p + a.length))
      = buf.drop (p + (a.length + b.length)) := by
    rw [← hL, List.drop_append, List.drop_drop, hL]
    congr 1
    omega
  simp only [writeAt, List.length_append]
  rw [List.take_left' hL, hdrop, List.append_assoc (buf.take p)]

-- Writing over bytes of the same length in the middle of a buffer.
theorem writeAt_middle (pre old new rest : List UInt8) (h : old.length = new.length) :
    writeAt (pre ++ old ++ rest) pre.length new = pre ++ new ++ rest := by
  have hd : (pre ++ old ++ rest).drop (pre.length + new.length) = rest := by
    rw [← h, ← List.length_append, List.drop_left' rfl]
  rw [writeAt, hd, List.append_assoc pre, List.take_left' rfl, List.append_assoc]

-- `u64` arithmetic wraps modulo `2^64`: the library's `UInt64.toNat_add`, `toNat_mul` and
-- `toNat_sub` count modulo `UInt64.size`
theorem UInt64.size_eq : UInt64.size = 2 ^ 64 := rfl

theorem UInt64.toNat_ofNat_mod (n : Nat) : (UInt64.ofNat n).toNat = n % 2 ^ 64 := rfl

theorem UInt64.lt_iff_toNat_lt (a b : UInt64) : a < b ↔ a.toNat < b.toNat := Iff.rfl

theorem UInt64.le_iff_toNat_le (a b : UInt64) : a ≤ b ↔ a.toNat ≤ b.toNat := Iff.rfl

theorem UInt64.ofNat_add (m n : Nat) : UInt64.ofNat (m + n) = UInt64.ofNat m + UInt64.ofNat n :=
  UInt64.toNat.inj (by simp only [UInt64.toNat_add, size_eq, toNat_ofNat_mod, ← Nat.add_mod])

@[simp]
theorem UInt64.ofNat_zero : UInt64.ofNat 0 = 0 := rfl

-- `n` little-endian bytes of `v`
def leBytes : Nat → Nat → List UInt8
  | 0, _ => []
  | n + 1, v => UInt8.ofNat (v % 256) :: leBytes n (v / 256)

-- the value of little-endian bytes
def leValue : List UInt8 → Nat
  | [] => 0
  | b :: bs => b.toNat + 256 * leValue bs

@[simp] theorem length_leBytes (n v : Nat) : (leBytes n v).length = n := by
  induction n generalizing v with
  | zero => rfl
  | succ n ih => simp [leBytes, ih]

theorem leValue_leBytes (n v : Nat) : leValue (leBytes n v) = v % 256 ^ n := by
  induction n generalizing v with
  | zero => simp [leBytes, leValue, Nat.mod_one]
  | succ n ih =>
    have hb : (UInt8.ofNat (v % 256)).toNat = v % 256 := Nat.mod_eq_of_lt (by omega)
    rw [leBytes, leValue, hb, ih, Nat.pow_succ, Nat.mul_comm _ 256, Nat.mod_mul]

theorem leValue_lt (bs : List UInt8) : leValue bs < 256 ^ bs.length := by
  induction bs with
  | nil => simp [leValue]
  | cons b bs ih =>
    have : b.toNat < 256 := b.toNat_lt_size
    simp only [leValue, List.length_cons, Nat.pow_succ]
    omega

/-- Modelled from the spec: the compact encoding of a `u64` or `usize` (the crate is not under
src/). Little-endian and self-delimiting: values 0 to 252 take one byte, and a first byte of
253, 254 or 255 announces the 2-, 4- or 8-byte little-endian value that follows. -/
def varint (v : Nat) : List UInt8 :=
  if v < 253 then [UInt8.ofNat v]
  else if v ≤ 0xffff then 253 :: leBytes 2 v
  else if v ≤ 0xffffffff then 254 :: leBytes 4 v
  else 255 :: leBytes 8 v

-- how many bytes `varint v` takes
def varintSize (v : Nat) : Nat :=
  if v < 253 then 1 else if v ≤ 0xffff then 3 else if v ≤ 0xffffffff then 5 else 9

@[simp] theorem length_varint (v : Nat) : (varint v).length = varintSize v := by
  unfold varint varintSize
  split_ifs <;> simp

/-- Modelled from the spec: reading a compact-encoded unsigned integer at `p`. The first byte
is the value when below 253; otherwise 253, 254 and 255 select 2, 4 and 8 little-endian bytes.
A buffer that ends early gives nothing. -/
def readVarint (buf : List UInt8) (p : Nat) : Option (Nat × Nat) :=
  match buf[p]? with
  | none => none
  | some b =>
    if b.toNat < 253 then some (b.toNat, p + 1)
    else
      let width := if b.toNat = 253 then 2 else if b.toNat = 254 then 4 else 8
      (readAt buf (p + 1) width).map fun bs => (leValue bs, p + 1 + width)

-- The reader sees the width the writer chose, and the little-endian bytes give the value back.
theorem readVarint_of_holds {buf : List UInt8} {p v : Nat} (hv : v < 2 ^ 64)
    (h : Holds buf p (varint v)) : readVarint buf p = some (v, p + varintSize v) := by
  unfold varint at h
  unfold varintSize
  split_ifs at h ⊢ with h1 h2 h3
  · rw [holds_cons] at h
    have hb : (UInt8.ofNat v).toNat = v := Nat.mod_eq_of_lt (by omega)
    simp [readVarint, h.1, hb, h1]
  all_goals
    rw [holds_cons] at h
    obtain ⟨h0, hrest⟩ := h
    have hread := readAt_of_holds hrest
    simp only [length_leBytes] at hread
    simp [readVarint, h0, hread, leValue_leBytes, UInt8.size]
    omega

-- Whatever the buffer holds, a successful read stays inside it and yields a `u64`.
theorem readVarint_bound {buf : List UInt8} {p v q : Nat} (h : readVarint buf p = some (v, q)) :
    q ≤ buf.length ∧ v < 2 ^ 64 := by
  unfold readVarint at h
  split at h
  · cases h
  next b hb =>
    have hp : p < buf.length := (List.getElem?_eq_some_iff.mp hb).1
    split at h
    · cases h
      exact ⟨by omega, by have : b.toNat < 256 := b.toNat_lt_size; omega⟩
    · simp only [Option.map_eq_some'] at h
      obtain ⟨bs, hbs, he⟩ := h
      cases he
      obtain ⟨hle, hlen⟩ := readAt_le hbs
      have hlt := leValue_lt bs
      refine ⟨by omega, lt_of_lt_of_le hlt ?_⟩
      rw [hlen]
      split_ifs <;> decide

-- On a prefix of the buffer, a read gives the same bytes, or nothing where it runs past the end.
theorem readAt_append {buf more bs : List UInt8} {p n : Nat}
    (h : readAt (buf ++ more) p n = some bs) : readAt buf p n = some bs ∨ readAt buf p n = none := by
  unfold readAt at h ⊢
  by_cases hp : p + n ≤ buf.length
  · have hlong : p + n ≤ (buf ++ more).length := by rw [List.length_append]; omega
    rw [if_pos hlong, List.drop_append_of_le_length (by omega),
      List.take_append_of_le_length (by rw [List.length_drop]; omega)] at h
    exact .inl (by rw [if_pos hp]; exact h)
  · exact .inr (if_neg hp)

theorem readVarint_append {buf more : List UInt8} {p : Nat} {r : Nat × Nat}
    (h : readVarint (buf ++ more) p = some r) : readVarint buf p = some r ∨ readVarint buf p = none := by
  unfold readVarint at h ⊢
  by_cases hp : p < buf.length
  · rw [List.getElem?_append_left hp] at h
    cases hb : buf[p]? with
    | none => exact .inr rfl
    | some b =>
      simp only [hb] at h ⊢
      by_cases hlt : b.toNat < 253
      · simp only [if_pos hlt] at h ⊢
        exact .inl h
      · simp only [if_neg hlt] at h ⊢
        generalize (if b.toNat = 253 then 2 else if b.toNat = 254 then 4 else 8) = width at h ⊢
        cases hr : readAt (buf ++ more) (p + 1) width with
        | none => simp only [hr, Option.map_none'] at h; cases h
        | some bs =>
          rw [hr] at h
          rcases readAt_append hr with h' | h' <;> simp only [h', h, Option.map_none', true_or, or_true]
  · exact .inr (by rw [List.getElem?_eq_none (by omega)])

end GnostrCore.Encoding
