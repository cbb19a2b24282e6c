import Mathlib.Algebra.Group.Nat.Defs
import Mathlib.Data.Set.Basic
import Mathlib.Tactic.Common

/-! Byte-addressed stores as total functions: a disk, a sector buffer and a packed
record are all `Bytes`. One primitive, `patch`, copies a block of bytes over another
store; little-endian 32-bit words are read back from it. -/
namespace ByteStore

abbrev Byte := BitVec 8
abbrev Bytes := ℕ → Byte

def zeroes : Bytes := fun _ => 0

/-- The store `m` with the `n` bytes from address `a` replaced by the first `n` of `src`. -/
def patch (m : Bytes) (a n : ℕ) (src : Bytes) : Bytes :=
  fun i => if a ≤ i ∧ i < a + n then src (i - a) else m i

def window (m : Bytes) (a : ℕ) : Bytes := fun i => m (a + i)

def span (a n : ℕ) : Set ℕ := {i | a ≤ i ∧ i < a + n}

/-- A 32-bit word stored least significant byte first. -/
def word (m : Bytes) (a : ℕ) : ℕ :=
  (m a).toNat + 256 * (m (a + 1)).toNat + 65536 * (m (a + 2)).toNat +
    16777216 * (m (a + 3)).toNat

def byteOf (v j : ℕ) : Byte := BitVec.ofNat 8 (v / 256 ^ j)

def ofWords (w : ℕ → ℕ) : Bytes := fun i => byteOf (w (i / 4)) (i % 4)

@[simp] theorem mem_span {a n i : ℕ} : i ∈ span a n ↔ a ≤ i ∧ i < a + n := Iff.rfl

theorem patch_in {m src : Bytes} {a n i : ℕ} (h : a ≤ i ∧ i < a + n) :
    patch m a n src i = src (i - a) := if_pos h

theorem patch_out {m src : Bytes} {a n i : ℕ} (h : ¬(a ≤ i ∧ i < a + n)) :
    patch m a n src i = m i := if_neg h

theorem word_congr {m m' : Bytes} {a b : ℕ} (h : ∀ j < 4, m (a + j) = m' (b + j)) :
    word m a = word m' b := by
  have h0 : m a = m' b := h 0 (by omega)
  have h1 := h 1 (by omega)
  have h2 := h 2 (by omega)
  have h3 := h 3 (by omega)
  simp only [word, h0, h1, h2, h3]

theorem word_patch_in {m src : Bytes} {a n i : ℕ} (h : a ≤ i ∧ i + 4 ≤ a + n) :
    word (patch m a n src) i = word src (i - a) := by
  apply word_congr
  intro j hj
  rw [patch_in (by omega)]
  congr 1
  omega

theorem word_window (m : Bytes) (a i : ℕ) : word (window m a) i = word m (a + i) := by
  simp only [word, window, Nat.add_assoc]

theorem byteOf_toNat (v j : ℕ) : (byteOf v j).toNat = v / 256 ^ j % 256 := by
  simp [byteOf, BitVec.toNat_ofNat]

theorem word_ofWords (w : ℕ → ℕ) (k : ℕ) : word (ofWords w) (4 * k) = w k % 2 ^ 32 := by
  have d0 : 4 * k / 4 = k := by omega
  have d1 : (4 * k + 1) / 4 = k := by omega
  have d2 : (4 * k + 2) / 4 = k := by omega
  have d3 : (4 * k + 3) / 4 = k := by omega
  have m0 : 4 * k % 4 = 0 := by omega
  have m1 : (4 * k + 1) % 4 = 1 := by omega
  have m2 : (4 * k + 2) % 4 = 2 := by omega
  have m3 : (4 * k + 3) % 4 = 3 := by omega
  simp only [word, ofWords, d0, d1, d2, d3, m0, m1, m2, m3, byteOf_toNat]
  omega

theorem word_ofWords_of_lt {w : ℕ → ℕ} {k : ℕ} (h : w k < 2 ^ 32) :
    word (ofWords w) (4 * k) = w k := by
  rw [word_ofWords, Nat.mod_eq_of_lt h]

/-- Writing back a buffer that was read from the same place, changed in one inner
block, patches just that block. -/
theorem patch_patch_window (m src : Bytes) {a n o k : ℕ} (h : o + k ≤ n) (buf : Bytes) :
    patch m a n (patch (patch buf 0 n (window m a)) o k src) = patch m (a + o) k src := by
  funext i
  by_cases hin : a + o ≤ i ∧ i < a + o + k
  · rw [patch_in hin, patch_in (by omega), patch_in (by omega)]
    congr 1
    omega
  · rw [patch_out hin]
    by_cases hn : a ≤ i ∧ i < a + n
    · rw [patch_in hn, patch_out (by omega), patch_in (by omega)]
      simp only [window]
      congr 1
      omega
    · rw [patch_out hn]

theorem window_window (m : Bytes) (a b : ℕ) : window (window m a) b = window m (a + b) := by
  funext i
  simp only [window, Nat.add_assoc]

/-- Two adjacent pieces of one source copied in a row are one copy. -/
theorem patch_append (m src : Bytes) (a n k : ℕ) :
    patch (patch m a n src) (a + n) k (window src n) = patch m a (n + k) src := by
  funext i
  by_cases hk : a + n ≤ i ∧ i < a + n + k
  · rw [patch_in hk, patch_in (by omega)]
    simp only [window]
    congr 1
    omega
  · rw [patch_out hk]
    by_cases hn : a ≤ i ∧ i < a + n
    · rw [patch_in hn, patch_in (by omega)]
    · rw [patch_out hn, patch_out (by omega)]

theorem patch_zero (m src : Bytes) (a : ℕ) : patch m a 0 src = m := by
  funext i
  exact patch_out (by omega)

/-- `m'` is `m` outside the addresses of `S`. -/
def Changes (S : Set ℕ) (m m' : Bytes) : Prop := ∀ i, i ∉ S → m' i = m i

theorem Changes.refl (S : Set ℕ) (m : Bytes) : Changes S m m := fun _ _ => rfl

theorem Changes.mono {S T : Set ℕ} {m m' : Bytes} (h : Changes S m m') (hst : S ⊆ T) :
    Changes T m m' := fun i hi => h i (fun hs => hi (hst hs))

theorem Changes.trans {S : Set ℕ} {m m' m'' : Bytes} (h : Changes S m m')
    (k : Changes S m' m'') : Changes S m m'' :=
  fun i hi => (k i hi).trans (h i hi)

theorem changes_patch (m : Bytes) (a n : ℕ) (src : Bytes) :
    Changes (span a n) m (patch m a n src) := fun _ hi => patch_out hi

theorem Changes.word {S : Set ℕ} {m m' : Bytes} (h : Changes S m m') {a : ℕ}
    (hd : ∀ j < 4, a + j ∉ S) : word m' a = word m a :=
  word_congr fun j hj => h _ (hd j hj)

end ByteStore
