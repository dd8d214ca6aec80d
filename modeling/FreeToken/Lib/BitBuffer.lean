import FreeToken.Lib.BitPack

/-!
# A buffer of the next bits

A reader of a stream of 32-bit words keeps the bits it has loaded at the top of a 64-bit register.  It
shifts out what it has consumed and puts the next word behind the bits that are left.
-/

set_option autoImplicit false

namespace BitBuffer

open BitPack

variable {words : Nat → Nat} {acc : BitVec 64} {word : BitVec 32} {pos n : Nat}

/-- Bit `q` of the stream, the most significant of a word first. -/
def bit (words : Nat → Nat) (q : Nat) : Bool := (words (q / 32)).testBit (31 - q % 32)

/-- The top `n` bits of the register are the next ones of the stream, and the others are clear. -/
def Shows (words : Nat → Nat) (acc : BitVec 64) (pos n : Nat) : Prop :=
  ∀ k < 64, acc.getMsbD k = (decide (k < n) && bit words (pos + k))

theorem getMsbD_word (word : BitVec 32) {k : Nat} (hk : k < 32) :
    word.getMsbD k = word.toNat.testBit (31 - k) := by
  rw [BitVec.getMsbD_eq_getLsbD, decide_eq_true hk, Bool.true_and]
  rfl

/-- The first word, without the bits before the place in it. -/
theorem Shows.start {w off : Nat} (hword : word.toNat = words w) (hoff : off < 32) :
    Shows words ((word <<< off).setWidth 64 <<< (32 : Nat)) (32 * w + off) (32 - off) := by
  intro k hk
  rw [BitVec.getMsbD_shiftLeft, BitVec.getMsbD_setWidth, decide_eq_true (by omega), Bool.true_and,
    show k + 32 + 32 - 64 = k by omega, BitVec.getMsbD_shiftLeft]
  by_cases hin : k + off < 32
  · have hdiv : (32 * w + off + k) / 32 = w := by omega
    have hmod : (32 * w + off + k) % 32 = k + off := by omega
    rw [getMsbD_word word hin, hword, decide_eq_true (by omega), Bool.true_and, bit, hdiv, hmod]
  · rw [BitVec.getMsbD_of_ge _ _ (by omega), decide_eq_false (by omega), Bool.false_and]

/-- The next word goes behind the bits that are left. -/
theorem Shows.refill (h : Shows words acc pos n) (hn : n ≤ 32) (hend : (pos + n) % 32 = 0)
    (hword : word.toNat = words ((pos + n) / 32)) :
    Shows words (acc ||| word.setWidth 64 <<< (32 - n)) pos (n + 32) := by
  intro k hk
  rw [BitVec.getMsbD_or, h k hk, BitVec.getMsbD_shiftLeft, BitVec.getMsbD_setWidth]
  by_cases hold : k < n
  · rw [decide_eq_true hold, decide_eq_true (by omega : k < n + 32), decide_eq_false (by omega),
      Bool.false_and, Bool.or_false]
  · rw [decide_eq_false hold, Bool.false_and, Bool.false_or, decide_eq_true (by omega),
      Bool.true_and, show k + (32 - n) + 32 - 64 = k - n by omega]
    by_cases hnew : k < n + 32
    · have hdiv : (pos + k) / 32 = (pos + n) / 32 := by omega
      have hmod : (pos + k) % 32 = k - n := by omega
      rw [getMsbD_word word (by omega), hword, decide_eq_true hnew, Bool.true_and, bit, hdiv, hmod]
    · rw [BitVec.getMsbD_of_ge _ _ (by omega), decide_eq_false hnew, Bool.false_and]

/-- What is shifted out is consumed. -/
theorem Shows.consume {len : Nat} (h : Shows words acc pos n) (hn : n ≤ 64) :
    Shows words (acc <<< len) (pos + len) (n - len) := by
  intro k hk
  rw [BitVec.getMsbD_shiftLeft]
  by_cases hin : k + len < 64
  · have hcount : decide (k + len < n) = decide (k < n - len) := decide_eq_decide.2 (by omega)
    rw [h _ hin, hcount, show pos + (k + len) = pos + len + k by omega]
  · rw [BitVec.getMsbD_of_ge _ _ (by omega), decide_eq_false (by omega), Bool.false_and]

/-- The bits of a peek of two words. -/
theorem testBit_peek (hwords : ∀ w, words w < 2 ^ 32) (hn : n ≤ 32) (i : Nat) :
    (peek 32 words pos n).testBit i = (decide (i < n) && bit words (pos + (n - 1 - i))) := by
  unfold peek
  rw [Nat.testBit_mod_two_pow]
  by_cases hi : i < n
  · rw [decide_eq_true hi, Bool.true_and, Bool.true_and, Nat.testBit_div_two_pow, Nat.mul_comm,
      Nat.testBit_two_pow_mul_add _ (hwords _)]
    unfold bit
    by_cases hfirst : pos % 32 + (n - 1 - i) < 32
    · have hdiv : (pos + (n - 1 - i)) / 32 = pos / 32 := by omega
      rw [if_neg (by omega), hdiv]
      congr 1
      omega
    · have hdiv : (pos + (n - 1 - i)) / 32 = pos / 32 + 1 := by omega
      rw [if_pos (by omega), hdiv]
      congr 1
      omega
  · rw [decide_eq_false hi, Bool.false_and, Bool.false_and]

/-- With enough bits loaded the top of the register is the peek; the sign that an arithmetic shift fills
in stays above the mask. -/
theorem Shows.window {len : Nat} (h : Shows words acc pos n) (hwords : ∀ w, words w < 2 ^ 32)
    (hlen : len ≤ n) (h32 : len ≤ 32) :
    acc.sshiftRight (64 - len) &&& BitVec.ofNat 64 ((1 <<< len) - 1) =
      BitVec.ofNat 64 (peek 32 words pos len) := by
  apply BitVec.eq_of_getLsbD_eq
  intro i hi
  rw [BitVec.getLsbD_and, BitVec.getLsbD_sshiftRight, BitVec.getLsbD_ofNat, BitVec.getLsbD_ofNat,
    Nat.one_shiftLeft, Nat.testBit_two_pow_sub_one, testBit_peek hwords h32, decide_eq_true hi,
    Bool.true_and, Bool.true_and]
  by_cases hin : i < len
  · have hk := h (len - 1 - i) (by omega)
    rw [BitVec.getMsbD_eq_getLsbD, decide_eq_true (by omega), decide_eq_true (by omega), Bool.true_and,
      Bool.true_and] at hk
    rw [decide_eq_true hin, Bool.and_true, Bool.true_and, if_pos (by omega), ← hk,
      show 64 - len + i = 64 - 1 - (len - 1 - i) by omega, decide_eq_false (by omega), Bool.not_false,
      Bool.true_and]
  · rw [decide_eq_false hin, Bool.and_false, Bool.false_and]

end BitBuffer
