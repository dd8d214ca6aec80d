import Mathlib.Algebra.Order.Ring.Nat
import Mathlib.Tactic.Ring
import Mathlib.Algebra.BigOperators.Intervals

/-!
# Codes packed into words

Codes of at most `b` bits are added, most significant bit first, to words of `b` bits.  A code may
touch two words.  As codes do not overlap the sums carry nothing, and every front of the stream can be
read back from two words.
-/

set_option autoImplicit false

namespace BitPack

/-! ## Powers of two -/

theorem pow_split {m n : Nat} (h : m ≤ n) : 2 ^ n = 2 ^ m * 2 ^ (n - m) := by
  rw [← Nat.pow_add, Nat.add_sub_cancel' h]

theorem pow_dvd_pow {m n : Nat} (h : m ≤ n) : 2 ^ m ∣ 2 ^ n := ⟨_, pow_split h⟩

/-- Below a block of `2 ^ m` nothing changes what is above `2 ^ e`. -/
theorem add_div_pow {x y m e : Nat} (hx : 2 ^ m ∣ x) (hy : y < 2 ^ m) (he : m ≤ e) :
    (x + y) / 2 ^ e = x / 2 ^ e := by
  obtain ⟨k, rfl⟩ := hx
  rw [pow_split he, ← Nat.div_div_eq_div_mul, ← Nat.div_div_eq_div_mul,
    Nat.mul_add_div (Nat.two_pow_pos m), Nat.div_eq_of_lt hy, Nat.add_zero,
    Nat.mul_div_cancel_left _ (Nat.two_pow_pos m)]

theorem add_lt_pow {x y m n : Nat} (hmn : m ≤ n) (hdvd : 2 ^ m ∣ x) (hx : x < 2 ^ n)
    (hy : y < 2 ^ m) : x + y < 2 ^ n := by
  obtain ⟨k, rfl⟩ := hdvd
  rw [pow_split hmn] at hx ⊢
  have hk : k < 2 ^ (n - m) := Nat.lt_of_mul_lt_mul_left hx
  calc 2 ^ m * k + y < 2 ^ m * k + 2 ^ m := by omega
    _ = 2 ^ m * (k + 1) := by ring
    _ ≤ 2 ^ m * 2 ^ (n - m) := Nat.mul_le_mul_left _ hk

/-! ## One code -/

variable (b : Nat)

/-- What a code of `len` bits at bit `off` adds to the word it starts in. -/
def high (off code len : Nat) : Nat :=
  code / 2 ^ (len - min len (b - off % b)) * 2 ^ (b - off % b - min len (b - off % b))

/-- What it adds to the next word. -/
def low (off code len : Nat) : Nat :=
  code % 2 ^ (len - min len (b - off % b)) * 2 ^ (b - (len - min len (b - off % b)))

/-- What it adds to word `w`. -/
def part (off code len w : Nat) : Nat :=
  (if w = off / b then high b off code len else 0) +
    if w = off / b + 1 then low b off code len else 0

def put (words : Nat → Nat) (off code len : Nat) : Nat → Nat :=
  fun w => words w + part b off code len w

/-- `n` bits from bit `pos` on, out of two words. -/
def peek (words : Nat → Nat) (pos n : Nat) : Nat :=
  (words (pos / b) * 2 ^ b + words (pos / b + 1)) / 2 ^ (2 * b - pos % b - n) % 2 ^ n

variable {b} {off code len : Nat} {words : Nat → Nat}

/-- The two parts are the code, shifted to its place. -/
theorem high_low (hb : 0 < b) (hlen : len ≤ b) :
    high b off code len * 2 ^ b + low b off code len = code * 2 ^ (2 * b - off % b - len) := by
  have ho := Nat.mod_lt off hb
  unfold high low
  by_cases hfit : len ≤ b - off % b
  · rw [Nat.min_eq_left hfit, Nat.sub_self, Nat.pow_zero, Nat.div_one, Nat.mod_one, Nat.zero_mul,
      Nat.add_zero, Nat.mul_assoc, ← Nat.pow_add]
    congr 2
    omega
  · rw [Nat.min_eq_right (by omega), Nat.sub_self, Nat.pow_zero, Nat.mul_one]
    have hrem : len - (b - off % b) ≤ b := by omega
    rw [show 2 ^ b = 2 ^ (len - (b - off % b)) * 2 ^ (b - (len - (b - off % b))) from pow_split hrem,
      ← Nat.mul_assoc, ← Nat.add_mul, Nat.div_add_mod']
    congr 2
    omega

theorem high_lt (hcode : code < 2 ^ len) :
    high b off code len < 2 ^ (b - off % b) := by
  unfold high
  have hmin : min len (b - off % b) ≤ len := Nat.min_le_left _ _
  have hmin' : min len (b - off % b) ≤ b - off % b := Nat.min_le_right _ _
  have hdiv : code / 2 ^ (len - min len (b - off % b)) < 2 ^ min len (b - off % b) := by
    rw [Nat.div_lt_iff_lt_mul (Nat.two_pow_pos _), ← Nat.pow_add]
    rwa [Nat.add_sub_cancel' hmin]
  rw [show 2 ^ (b - off % b) = _ from pow_split hmin']
  exact Nat.mul_lt_mul_of_pos_right hdiv (Nat.two_pow_pos _)

theorem low_lt (hlen : len ≤ b) : low b off code len < 2 ^ b := by
  unfold low
  have hrem : len - min len (b - off % b) ≤ b := by omega
  rw [show 2 ^ b = _ from pow_split hrem]
  exact Nat.mul_lt_mul_of_pos_right (Nat.mod_lt _ (Nat.two_pow_pos _)) (Nat.two_pow_pos _)

/-- A code that ends before the word does adds nothing to the next. -/
theorem low_eq_zero (h : len ≤ b - off % b) : low b off code len = 0 := by
  unfold low
  rw [Nat.min_eq_left h, Nat.sub_self, Nat.pow_zero, Nat.mod_one, Nat.zero_mul]

/-! ## A stream that ends at bit `t` -/

/-- The words are whole, and empty from bit `t` on. -/
structure Clean (b : Nat) (words : Nat → Nat) (t : Nat) : Prop where
  lt : ∀ w, words w < 2 ^ b
  dvd : 2 ^ (b - t % b) ∣ words (t / b)
  zero : ∀ w, t / b < w → words w = 0

theorem clean_zero (b : Nat) : Clean b (fun _ => 0) 0 where
  lt := fun _ => Nat.two_pow_pos b
  dvd := Nat.dvd_zero _
  zero := fun _ _ => rfl

variable {t : Nat}

theorem Clean.put (hb : 0 < b) (h : Clean b words t) (hlen : len ≤ b) (hcode : code < 2 ^ len) :
    Clean b (put b words t code len) (t + len) := by
  have ho := Nat.mod_lt t hb
  have hdiv := Nat.div_add_mod t b
  have hnext := h.zero (t / b + 1) (Nat.lt_succ_self _)
  have hhere : BitPack.put b words t code len (t / b) = words (t / b) + high b t code len := by
    unfold BitPack.put part
    rw [if_pos rfl, if_neg (by omega), Nat.add_zero]
  have hthere : BitPack.put b words t code len (t / b + 1) = low b t code len := by
    unfold BitPack.put part
    rw [if_neg (by omega), if_pos rfl, hnext, Nat.zero_add, Nat.zero_add]
  have helse : ∀ w, w ≠ t / b → w ≠ t / b + 1 → BitPack.put b words t code len w = words w := by
    intro w h₁ h₂
    unfold BitPack.put part
    rw [if_neg h₁, if_neg h₂, Nat.add_zero]
  constructor
  case lt =>
    intro w
    by_cases h₁ : w = t / b
    · rw [h₁, hhere]
      exact add_lt_pow (Nat.sub_le _ _) h.dvd (h.lt _) (high_lt hcode)
    · by_cases h₂ : w = t / b + 1
      · rw [h₂, hthere]
        exact low_lt hlen
      · rw [helse w h₁ h₂]
        exact h.lt w
  case dvd =>
    by_cases hfit : t % b + len < b
    · have hq : (t + len) / b = t / b := by
        rw [Nat.div_eq_iff hb]
        constructor
        · rw [Nat.mul_comm]
          omega
        · rw [Nat.mul_comm]
          omega
      have hr : (t + len) % b = t % b + len := by
        have := Nat.div_add_mod (t + len) b
        rw [hq] at this
        omega
      rw [hq, hr, hhere]
      apply Nat.dvd_add
      · exact Nat.dvd_trans (pow_dvd_pow (by omega)) h.dvd
      · unfold high
        rw [Nat.min_eq_left (by omega), show b - t % b - len = b - (t % b + len) by omega]
        exact Nat.dvd_mul_left _ _
    · have hq : (t + len) / b = t / b + 1 := by
        rw [Nat.div_eq_iff hb, Nat.add_mul]
        have hcomm := Nat.mul_comm b (t / b)
        omega
      have hr : (t + len) % b = len - (b - t % b) := by
        have := Nat.div_add_mod (t + len) b
        rw [hq, Nat.mul_add] at this
        omega
      rw [hq, hr, hthere]
      unfold low
      rw [Nat.min_eq_right (by omega)]
      exact Nat.dvd_mul_left _ _
  case zero =>
    intro w hw
    have hge : t / b ≤ (t + len) / b := Nat.div_le_div_right (Nat.le_add_right t len)
    by_cases h₂ : w = t / b + 1
    · -- the code ended in the word before
      rw [h₂] at hw ⊢
      rw [hthere]
      apply low_eq_zero
      by_contra hlong
      have hq : t / b + 1 ≤ (t + len) / b := by
        rw [Nat.le_div_iff_mul_le hb, Nat.add_mul, Nat.mul_comm]
        omega
      omega
    · rw [helse w (by omega) h₂]
      exact h.zero w (by omega)

/-- The code that was put last is read back. -/
theorem Clean.peek_put (hb : 0 < b) (h : Clean b words t) (hlen : len ≤ b) (hcode : code < 2 ^ len) :
    peek b (BitPack.put b words t code len) t len = code := by
  have ho := Nat.mod_lt t hb
  obtain ⟨k, hk⟩ := h.dvd
  have hnext := h.zero (t / b + 1) (Nat.lt_succ_self _)
  have hsum : BitPack.put b words t code len (t / b) * 2 ^ b +
      BitPack.put b words t code len (t / b + 1) =
        (k * 2 ^ len + code) * 2 ^ (2 * b - t % b - len) := by
    unfold BitPack.put part
    rw [if_pos rfl, if_neg (by omega), if_neg (by omega), if_pos rfl, hnext, Nat.add_zero,
      Nat.zero_add, Nat.zero_add, Nat.add_mul, Nat.add_assoc, high_low hb hlen, hk, Nat.add_mul]
    congr 1
    calc 2 ^ (b - t % b) * k * 2 ^ b = k * 2 ^ (b - t % b + b) := by
          rw [Nat.pow_add]
          ring
      _ = k * 2 ^ (len + (2 * b - t % b - len)) := by
          congr 2
          omega
      _ = k * 2 ^ len * 2 ^ (2 * b - t % b - len) := by rw [Nat.pow_add, Nat.mul_assoc]
  unfold peek
  rw [hsum, Nat.mul_div_cancel _ (Nat.two_pow_pos _), Nat.mul_comm k, Nat.mul_add_mod,
    Nat.mod_eq_of_lt hcode]

/-- What was there before is read as before. -/
theorem Clean.peek_frame (hb : 0 < b) (h : Clean b words t) (hlen : len ≤ b)
    (hcode : code < 2 ^ len) {pos n : Nat} (hn : n ≤ b) (hpos : pos + n ≤ t) :
    peek b (BitPack.put b words t code len) pos n = peek b words pos n := by
  have ho := Nat.mod_lt t hb
  have hpos' := Nat.mod_lt pos hb
  have hdiv := Nat.div_add_mod t b
  have hdiv' := Nat.div_add_mod pos b
  have hle : pos / b ≤ t / b := Nat.div_le_div_right (by omega)
  unfold peek
  congr 1
  rcases Nat.lt_or_ge (pos / b + 1) (t / b) with hfar | hnear
  · -- both words are before the code
    unfold BitPack.put part
    rw [if_neg (by omega), if_neg (by omega), if_neg (by omega), if_neg (by omega)]
    simp only [Nat.add_zero]
  · rcases Nat.eq_or_lt_of_le hnear with hsecond | hsame
    · -- the code starts in the second word
      have hput : BitPack.put b words t code len (pos / b) * 2 ^ b +
          BitPack.put b words t code len (pos / b + 1) =
            words (pos / b) * 2 ^ b + words (pos / b + 1) + high b t code len := by
        unfold BitPack.put part
        rw [if_neg (by omega), if_neg (by omega), if_pos (by omega), if_neg (by omega)]
        ring
      have hdvd : 2 ^ (b - t % b) ∣ words (pos / b) * 2 ^ b + words (pos / b + 1) := by
        apply Nat.dvd_add
        · exact Nat.dvd_mul_left_of_dvd (pow_dvd_pow (Nat.sub_le _ _)) _
        · rw [← hsecond]
          exact h.dvd
      rw [hput]
      apply add_div_pow hdvd (high_lt hcode)
      have hmul : b * (t / b) = b * (pos / b) + b := by rw [hsecond, Nat.mul_add, Nat.mul_one]
      omega
    · -- the code starts in the first word, behind what is read
      have heq : t / b = pos / b := by omega
      have hput : BitPack.put b words t code len (pos / b) * 2 ^ b +
          BitPack.put b words t code len (pos / b + 1) =
            words (pos / b) * 2 ^ b + words (pos / b + 1) +
              code * 2 ^ (2 * b - t % b - len) := by
        rw [← high_low hb hlen]
        unfold BitPack.put part
        rw [if_pos heq.symm, if_neg (by omega), if_neg (by omega), if_pos (by omega)]
        ring
      have hdvd : 2 ^ (2 * b - t % b) ∣ words (pos / b) * 2 ^ b + words (pos / b + 1) := by
        rw [h.zero (pos / b + 1) (by omega), Nat.add_zero,
          show 2 * b - t % b = b - t % b + b by omega, Nat.pow_add, ← heq]
        exact Nat.mul_dvd_mul_right h.dvd _
      have hlt : code * 2 ^ (2 * b - t % b - len) < 2 ^ (2 * b - t % b) := by
        rw [pow_split (show len ≤ 2 * b - t % b by omega)]
        exact Nat.mul_lt_mul_of_pos_right hcode (Nat.two_pow_pos _)
      rw [hput]
      apply add_div_pow hdvd hlt
      rw [heq] at hdiv
      omega

/-- A longer read starts with a shorter one. -/
theorem peek_div (words : Nat → Nat) (pos : Nat) {l n : Nat} (hln : l ≤ n) (hb : 0 < b)
    (hn : n ≤ b) : peek b words pos n / 2 ^ (n - l) = peek b words pos l := by
  have ho := Nat.mod_lt pos hb
  unfold peek
  rw [show 2 ^ n = 2 ^ (n - l) * 2 ^ l by rw [← Nat.pow_add]; congr 1; omega,
    Nat.mod_mul_right_div_self, Nat.div_div_eq_div_mul, ← Nat.pow_add]
  congr 3
  omega

/-! ## The whole stream -/

variable (b) in
/-- The codes one behind the other, from bit `t` on. -/
def packFrom : (Nat → Nat) → Nat → List (Nat × Nat) → Nat → Nat
  | words, _, [] => words
  | words, t, c :: cs => packFrom (BitPack.put b words t c.1 c.2) (t + c.2) cs

def bitLength (cs : List (Nat × Nat)) : Nat := (cs.map Prod.snd).sum

/-- Codes with the bits they start at. -/
def placed : Nat → List (Nat × Nat) → List (Nat × Nat × Nat)
  | _, [] => []
  | t, c :: cs => (t, c) :: placed (t + c.2) cs

/-- A code is below `2 ^ len`, and no longer than a word. -/
def Fits (b : Nat) (c : Nat × Nat) : Prop := c.2 ≤ b ∧ c.1 < 2 ^ c.2

theorem packFrom_eq_sum (w : Nat) : ∀ (cs : List (Nat × Nat)) (words : Nat → Nat) (t : Nat),
    packFrom b words t cs w =
      words w + ((placed t cs).map fun p => part b p.1 p.2.1 p.2.2 w).sum
  | [], words, t => by
      rw [placed, List.map_nil, List.sum_nil]
      rfl
  | c :: cs, words, t => by
      rw [packFrom, packFrom_eq_sum w cs, placed, List.map_cons, List.sum_cons, BitPack.put,
        Nat.add_assoc]

theorem packFrom_frame (hb : 0 < b) {pos n : Nat} (hn : n ≤ b) :
    ∀ {cs : List (Nat × Nat)} {words : Nat → Nat} {t : Nat}, Clean b words t →
      (∀ c ∈ cs, Fits b c) → pos + n ≤ t → peek b (packFrom b words t cs) pos n = peek b words pos n
  | [], _, _, _, _, _ => rfl
  | c :: cs, words, t, h, hfits, hpos => by
      obtain ⟨hlen, hcode⟩ := hfits c List.mem_cons_self
      rw [packFrom, packFrom_frame hb hn (h.put hb hlen hcode)
        (fun d hd => hfits d (List.mem_cons_of_mem c hd)) (by omega), h.peek_frame hb hlen hcode hn hpos]

/-- Every code is read back at its place, with whatever follows behind it. -/
theorem peek_packFrom (hb : 0 < b) {c : Nat × Nat} {n : Nat} (hcn : c.2 ≤ n) (hn : n ≤ b) :
    ∀ {pre post : List (Nat × Nat)} {words : Nat → Nat} {t : Nat}, Clean b words t →
      (∀ d ∈ pre ++ c :: post, Fits b d) →
      peek b (packFrom b words t (pre ++ c :: post)) (t + bitLength pre) n / 2 ^ (n - c.2) = c.1
  | [], post, words, t, h, hfits => by
      obtain ⟨hlen, hcode⟩ := hfits c List.mem_cons_self
      rw [peek_div _ _ hcn hb hn]
      show peek b (packFrom b (BitPack.put b words t c.1 c.2) (t + c.2) post) (t + 0) c.2 = c.1
      rw [Nat.add_zero, packFrom_frame hb hlen (h.put hb hlen hcode)
        (fun d hd => hfits d (List.mem_cons_of_mem c hd)) (Nat.le_refl _), h.peek_put hb hlen hcode]
  | d :: pre, post, words, t, h, hfits => by
      obtain ⟨hlen, hcode⟩ := hfits d List.mem_cons_self
      have ih := peek_packFrom hb hcn hn (h.put hb hlen hcode)
        (fun e he => hfits e (List.mem_cons_of_mem d he))
      have hoff : t + bitLength (d :: pre) = t + d.2 + bitLength pre := by
        unfold bitLength
        rw [List.map_cons, List.sum_cons, Nat.add_assoc]
      rw [hoff]
      exact ih

theorem packFrom_clean (hb : 0 < b) :
    ∀ {cs : List (Nat × Nat)} {words : Nat → Nat} {t : Nat}, Clean b words t →
      (∀ c ∈ cs, Fits b c) → Clean b (packFrom b words t cs) (t + bitLength cs)
  | [], _, _, h, _ => h
  | c :: cs, words, t, h, hfits => by
      obtain ⟨hlen, hcode⟩ := hfits c List.mem_cons_self
      have ih := packFrom_clean hb (h.put hb hlen hcode)
        (fun d hd => hfits d (List.mem_cons_of_mem c hd))
      have hoff : t + bitLength (c :: cs) = t + c.2 + bitLength cs := by
        unfold bitLength
        rw [List.map_cons, List.sum_cons, Nat.add_assoc]
      rw [hoff]
      exact ih

theorem length_placed : ∀ (t : Nat) (cs : List (Nat × Nat)), (placed t cs).length = cs.length
  | _, [] => rfl
  | t, c :: cs => by rw [placed, List.length_cons, length_placed, List.length_cons]

theorem getElem?_placed (i : Nat) : ∀ (t : Nat) (cs : List (Nat × Nat)),
    (placed t cs)[i]? = cs[i]?.map fun c => (t + bitLength (cs.take i), c) := by
  induction i with
  | zero =>
      intro t cs
      cases cs with
      | nil => rfl
      | cons c cs => rfl
  | succ i ih =>
      intro t cs
      cases cs with
      | nil => rfl
      | cons c cs =>
          have hoff : t + bitLength ((c :: cs).take (i + 1)) = t + c.2 + bitLength (cs.take i) := by
            unfold bitLength
            rw [List.take_succ_cons, List.map_cons, List.sum_cons, Nat.add_assoc]
          rw [placed, List.getElem?_cons_succ, List.getElem?_cons_succ, hoff, ih]

/-! ## Streams in columns -/

open Finset

theorem bitLength_append (cs ds : List (Nat × Nat)) :
    bitLength (cs ++ ds) = bitLength cs + bitLength ds := by
  unfold bitLength
  rw [List.map_append, List.sum_append]

theorem bitLength_range (c : Nat → Nat × Nat) (m : Nat) :
    bitLength ((List.range m).map c) = ∑ i ∈ range m, (c i).2 := by
  unfold bitLength
  rw [List.map_map]
  rfl

theorem bitLength_columns (c : Nat → List (Nat × Nat)) (g : Nat) :
    bitLength ((List.range g).flatMap c) = ∑ j ∈ range g, bitLength (c j) := by
  induction g with
  | zero => rfl
  | succ g ih =>
      rw [List.range_succ, List.flatMap_append, bitLength_append, ih, sum_range_succ,
        List.flatMap_singleton]

theorem placed_append (t : Nat) (cs ds : List (Nat × Nat)) :
    placed t (cs ++ ds) = placed t cs ++ placed (t + bitLength cs) ds := by
  induction cs generalizing t with
  | nil => rfl
  | cons c cs ih =>
      rw [List.cons_append, placed, ih, placed, List.cons_append]
      have hoff : t + bitLength (c :: cs) = t + c.2 + bitLength cs := by
        unfold bitLength
        rw [List.map_cons, List.sum_cons, Nat.add_assoc]
      rw [hoff]

variable {M : Type*} [AddCommMonoid M] (f : Nat × Nat × Nat → M)

theorem sum_placed_range (c : Nat → Nat × Nat) (t m : Nat) :
    ((placed t ((List.range m).map c)).map f).sum =
      ∑ i ∈ range m, f (t + ∑ r ∈ range i, (c r).2, c i) := by
  induction m with
  | zero => rfl
  | succ m ih =>
      rw [List.range_succ, List.map_append, placed_append, List.map_append, List.sum_append, ih,
        sum_range_succ, bitLength_range]
      congr 1
      show f _ + 0 = f _
      rw [add_zero]

theorem sum_placed_columns (c : Nat → List (Nat × Nat)) (g : Nat) :
    ((placed 0 ((List.range g).flatMap c)).map f).sum =
      ∑ j ∈ range g, ((placed (∑ k ∈ range j, bitLength (c k)) (c j)).map f).sum := by
  induction g with
  | zero => rfl
  | succ g ih =>
      rw [List.range_succ, List.flatMap_append, placed_append, List.map_append, List.sum_append, ih,
        sum_range_succ, bitLength_columns, List.flatMap_singleton, Nat.zero_add]

/-- A range up to one of its elements. -/
theorem exists_range_split {i m : Nat} (h : i < m) : ∃ post, List.range m = List.range i ++ i :: post := by
  obtain ⟨k, rfl⟩ := Nat.exists_eq_add_of_lt h
  refine ⟨(List.range k).map fun x => i + (x + 1), ?_⟩
  rw [show i + k + 1 = i + (k + 1) by omega, List.range_add, List.range_succ_eq_map, List.map_cons,
    List.map_map]
  rfl

end BitPack
