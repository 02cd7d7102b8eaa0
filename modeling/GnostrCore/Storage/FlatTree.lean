import Mathlib

namespace GnostrCore.Storage

/-- Modelled from the spec: the root cover in the flat-tree labeling (the `flat_tree` crate is
not under src/). The first `n` leaves are covered by one subtree per set bit of `n`, highest
first; a subtree of `2^k` leaves whose first leaf is leaf `o` has its root at flat index
`2o + 2^k - 1`. Each entry is the root with the first leaf and the number of leaves it spans;
`cover k n o` takes the set bits of `n` below bit `k`, after `o` leaves. -/
def cover : (k : Nat) → (n o : Nat) → List (Nat × Nat × Nat)
  | 0, _, _ => []
  | k + 1, n, o =>
    if n.testBit k then (2 * o + 2 ^ k - 1, o, 2 ^ k) :: cover k n (o + 2 ^ k)
    else cover k n o

-- `flat_tree::full_roots(index, &mut roots)` for an even `u64` flat index: the roots that
-- cover the leaves before it
def fullRoots (index : UInt64) : List UInt64 :=
  (cover 64 (index.toNat / 2) 0).map fun x => UInt64.ofNat x.1

example : fullRoots 6 = [1, 4] := by decide

-- the sum of `len` over the `w` leaves from leaf `o`
def spanSum (len : Nat → Nat) (o : Nat) : Nat → Nat
  | 0 => 0
  | w + 1 => spanSum len o w + len (o + w)

theorem spanSum_add (len : Nat → Nat) (o a b : Nat) :
    spanSum len o (a + b) = spanSum len o a + spanSum len (o + a) b := by
  induction b with
  | zero => rfl
  | succ b ih => rw [← Nat.add_assoc, spanSum, ih, spanSum, Nat.add_assoc, Nat.add_assoc]

theorem spanSum_mono (len : Nat → Nat) (o : Nat) {a b : Nat} (h : a ≤ b) :
    spanSum len o a ≤ spanSum len o b := by
  obtain ⟨c, rfl⟩ := Nat.exists_eq_add_of_le h
  rw [spanSum_add]
  exact Nat.le_add_right _ _

-- the bytes of the blocks before `j`, and of block `j` itself, come before block `i > j`
theorem spanSum_add_le_of_lt (len : Nat → Nat) {j i : Nat} (h : j < i) :
    spanSum len 0 j + len j ≤ spanSum len 0 i := by
  have hle := spanSum_mono len 0 (Nat.succ_le_of_lt h)
  rwa [spanSum, Nat.zero_add] at hle

-- bit `k` of `n`, as what it adds below `2^(k+1)`
private theorem mod_two_pow_succ_testBit (n k : Nat) :
    n % 2 ^ (k + 1) = n % 2 ^ k + if n.testBit k then 2 ^ k else 0 := by
  rw [Nat.mod_pow_succ, Nat.testBit_to_div_mod]
  rcases Nat.mod_two_eq_zero_or_one (n / 2 ^ k) with h | h <;> simp [h]

-- The subtrees of the cover span the leaves from `o` on, one after the other, and no others.
theorem cover_spanSum (len : Nat → Nat) (k n o : Nat) :
    ((cover k n o).map fun x => spanSum len x.2.1 x.2.2).sum = spanSum len o (n % 2 ^ k) := by
  induction k generalizing o with
  | zero => simp [cover, Nat.mod_one, spanSum]
  | succ k ih =>
    rw [mod_two_pow_succ_testBit, cover]
    split_ifs with hk
    · rw [List.map_cons, List.sum_cons, ih, Nat.add_comm (n % 2 ^ k), spanSum_add]
    · rw [ih, Nat.add_zero]

theorem length_cover_le (k n o : Nat) : (cover k n o).length ≤ k := by
  induction k generalizing o with
  | zero => simp [cover]
  | succ k ih =>
    rw [cover]
    split_ifs
    · exact Nat.succ_le_succ (ih _)
    · exact Nat.le_succ_of_le (ih _)

-- No leaf, no roots; some leaf below `2^k`, some root.
theorem cover_eq_nil_iff {k n o : Nat} (hn : n < 2 ^ k) : cover k n o = [] ↔ n = 0 := by
  induction k generalizing o with
  | zero => simp only [cover, true_iff]; omega
  | succ k ih =>
    rw [cover]
    split_ifs with hk
    · simp only [reduceCtorEq, false_iff]
      rintro rfl
      simp at hk
    · have hlt : n < 2 ^ k := by
        have := mod_two_pow_succ_testBit n k
        rw [if_neg hk, Nat.add_zero, Nat.mod_eq_of_lt hn] at this
        rw [this]
        exact Nat.mod_lt _ (Nat.two_pow_pos k)
      exact ih hlt

end GnostrCore.Storage
