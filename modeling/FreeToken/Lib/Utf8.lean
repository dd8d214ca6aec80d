import Mathlib.Data.List.Basic

/-!
# Incremental UTF-8 decoding

Bytes are decoded one at a time.  A byte sequence that cannot be continued, or that the input ends
inside of, becomes one replacement character.
-/

set_option autoImplicit false

namespace Utf8

/-- The character a decoder is inside of: how many bytes are missing, the bits so far, and the range
of the next byte.  Nothing is missing between two characters. -/
structure Pending where
  need : Nat
  bits : Nat
  lo : Nat
  hi : Nat
  deriving DecidableEq, Repr

def Pending.none : Pending := { need := 0, bits := 0, lo := 0x80, hi := 0xBF }

def replacement : Char := Char.ofNat 0xFFFD

/-- A byte between two characters. -/
def lead (b : Nat) : List Char × Pending :=
  if b ≤ 0x7F then ([Char.ofNat b], .none)
  else if 0xC2 ≤ b ∧ b ≤ 0xDF then ([], { need := 1, bits := b - 0xC0, lo := 0x80, hi := 0xBF })
  else if 0xE0 ≤ b ∧ b ≤ 0xEF then
    -- the ranges leave out overlong forms and surrogates
    ([], { need := 2, bits := b - 0xE0, lo := if b = 0xE0 then 0xA0 else 0x80,
           hi := if b = 0xED then 0x9F else 0xBF })
  else if 0xF0 ≤ b ∧ b ≤ 0xF4 then
    ([], { need := 3, bits := b - 0xF0, lo := if b = 0xF0 then 0x90 else 0x80,
           hi := if b = 0xF4 then 0x8F else 0xBF })
  else ([replacement], .none)

def step (p : Pending) (b : UInt8) : List Char × Pending :=
  if p.need = 0 then lead b.toNat
  else if p.lo ≤ b.toNat ∧ b.toNat ≤ p.hi then
    let bits := p.bits * 64 + (b.toNat - 0x80)
    if p.need = 1 then ([Char.ofNat bits], .none)
    else ([], { need := p.need - 1, bits, lo := 0x80, hi := 0xBF })
  else
    let (out, p) := lead b.toNat
    (replacement :: out, p)

def run (p : Pending) : List UInt8 → List Char × Pending
  | [] => ([], p)
  | b :: bs =>
      let (out, p) := step p b
      let (rest, p) := run p bs
      (out ++ rest, p)

/-- The characters that are complete. -/
def complete (bs : List UInt8) : List Char := (run .none bs).1

/-- The input ends between two characters. -/
def Clean (bs : List UInt8) : Prop := (run .none bs).2 = .none

instance (bs : List UInt8) : Decidable (Clean bs) := inferInstanceAs (Decidable (_ = _))

def decode (bs : List UInt8) : List Char :=
  complete bs ++ if Clean bs then [] else [replacement]

theorem run_append (p : Pending) (a b : List UInt8) :
    run p (a ++ b) = ((run p a).1 ++ (run (run p a).2 b).1, (run (run p a).2 b).2) := by
  induction a generalizing p with
  | nil => rfl
  | cons x a ih => simp only [List.cons_append, run, ih, List.append_assoc]

theorem complete_append_of_clean {a : List UInt8} (h : Clean a) (b : List UInt8) :
    complete (a ++ b) = complete a ++ complete b := by
  unfold complete
  rw [run_append, h]

theorem clean_append_of_clean {a : List UInt8} (h : Clean a) (b : List UInt8) :
    Clean (a ++ b) ↔ Clean b := by
  unfold Clean
  rw [run_append, h]

theorem complete_grows (a b : List UInt8) : complete a <+: complete (a ++ b) := by
  unfold complete
  rw [run_append]
  exact List.prefix_append _ _

theorem clean_nil : Clean [] := rfl

theorem decode_of_clean {bs : List UInt8} (h : Clean bs) : decode bs = complete bs := by
  rw [decode, if_pos h, List.append_nil]

theorem decode_of_not_clean {bs : List UInt8} (h : ¬ Clean bs) :
    decode bs = complete bs ++ [replacement] := by
  rw [decode, if_neg h]

/-- A text that does not end in a replacement character was read to the end. -/
theorem clean_of_getLast? {bs : List UInt8} (h : (decode bs).getLast? ≠ some replacement) :
    Clean bs := by
  by_contra hno
  rw [decode_of_not_clean hno, List.getLast?_concat] at h
  exact h rfl

/-- Text is decoded piecewise from where a character ends. -/
theorem decode_append_of_clean {a : List UInt8} (h : Clean a) (b : List UInt8) :
    decode (a ++ b) = decode a ++ decode b := by
  rw [decode_of_clean h]
  unfold decode
  rw [complete_append_of_clean h, List.append_assoc, ite_congr (propext (clean_append_of_clean h b))
    (fun _ => rfl) (fun _ => rfl)]

/-! ## Bytes from the middle of a text -/

/-- What a decoder inside of a character gives for the rest of the input. -/
def decodeFrom (p : Pending) (bs : List UInt8) : List Char :=
  (run p bs).1 ++ if (run p bs).2 = .none then [] else [replacement]

theorem decode_append (a b : List UInt8) :
    decode (a ++ b) = complete a ++ decodeFrom (run .none a).2 b := by
  show decodeFrom .none (a ++ b) = _
  unfold decodeFrom complete
  rw [run_append, List.append_assoc]

/-- A decoder is between two characters or misses continuation bytes. -/
def Pending.Valid (p : Pending) : Prop := p = .none ∨ 0 < p.need ∧ 0x80 ≤ p.lo ∧ p.hi ≤ 0xBF

theorem valid_lead (b : Nat) : (lead b).2.Valid := by
  unfold lead Pending.Valid
  split
  · exact .inl rfl
  · split
    · exact .inr ⟨Nat.one_pos, Nat.le_refl _, Nat.le_refl _⟩
    · split
      · right
        dsimp only
        refine ⟨by decide, ?_, ?_⟩
        · split <;> decide
        · split <;> decide
      · split
        · right
          dsimp only
          refine ⟨by decide, ?_, ?_⟩
          · split <;> decide
          · split <;> decide
        · exact .inl rfl

theorem valid_step (p : Pending) (b : UInt8) : (step p b).2.Valid := by
  unfold step
  split
  · exact valid_lead b.toNat
  · split
    · dsimp only
      split
      · exact .inl rfl
      · refine .inr ⟨?_, Nat.le_refl _, Nat.le_refl _⟩
        dsimp only
        omega
    · exact valid_lead b.toNat

theorem valid_run {p : Pending} (hp : p.Valid) (bs : List UInt8) : (run p bs).2.Valid := by
  induction bs generalizing p with
  | nil => exact hp
  | cons b bs ih => exact ih (valid_step p b)

/-- How many of the bytes continue the character a decoder is inside of. -/
def overhang : Pending → List UInt8 → Nat
  | _, [] => 0
  | p, b :: bs =>
      if p.need ≠ 0 ∧ p.lo ≤ b.toNat ∧ b.toNat ≤ p.hi then overhang (step p b).2 bs + 1 else 0

theorem overhang_none (bs : List UInt8) : overhang .none bs = 0 := by
  cases bs with
  | nil => rfl
  | cons b bs => rfl

/-- A continuation byte between two characters is replaced. -/
theorem decode_cons_continuation {b : UInt8} (hlo : 0x80 ≤ b.toNat) (hhi : b.toNat ≤ 0xBF)
    (bs : List UInt8) : decode (b :: bs) = replacement :: decode bs := by
  have hstep : run .none [b] = ([replacement], .none) := by
    show ((lead b.toNat).1 ++ [], (lead b.toNat).2) = _
    unfold lead
    rw [if_neg (by omega), if_neg (by omega), if_neg (by omega), if_neg (by omega)]
    rfl
  have hclean : Clean [b] := by
    unfold Clean
    rw [hstep]
  have happend := decode_append_of_clean hclean bs
  rw [List.singleton_append] at happend
  rw [happend, decode_of_clean hclean, complete, hstep]
  rfl

/-- Bytes that begin inside of a character are decoded as after it, behind a replacement character
for each byte of its rest. -/
theorem decodeFrom_overhang {p : Pending} (hp : p.Valid) (hne : p ≠ .none) (bs : List UInt8) :
    ∃ c rest, decodeFrom p bs = c :: rest ∧
      decode bs = List.replicate (overhang p bs) replacement ++ rest := by
  induction bs generalizing p with
  | nil =>
      refine ⟨replacement, [], ?_, rfl⟩
      show [] ++ (if p = .none then [] else [replacement]) = _
      rw [if_neg hne]
      rfl
  | cons b bs ih =>
      obtain ⟨hneed, hlo, hhi⟩ := hp.resolve_left hne
      have hcons : decodeFrom p (b :: bs) = (step p b).1 ++ decodeFrom (step p b).2 bs := by
        unfold decodeFrom
        rw [run, List.append_assoc]
      by_cases hin : p.lo ≤ b.toNat ∧ b.toNat ≤ p.hi
      · have hover : overhang p (b :: bs) = overhang (step p b).2 bs + 1 := by
          rw [overhang, if_pos ⟨by omega, hin⟩]
        have hdec := decode_cons_continuation (b := b) (by omega) (by omega) bs
        by_cases hone : p.need = 1
        · have hstep : step p b = ([Char.ofNat (p.bits * 64 + (b.toNat - 0x80))], .none) := by
            rw [step, if_neg (by omega), if_pos hin, if_pos hone]
          rw [hcons, hover, hdec, hstep]
          exact ⟨_, decode bs, rfl, by rw [overhang_none]; rfl⟩
        · have hstep : step p b =
              ([], ⟨p.need - 1, p.bits * 64 + (b.toNat - 0x80), 0x80, 0xBF⟩) := by
            rw [step, if_neg (by omega), if_pos hin, if_neg hone]
          have hnone : (step p b).2 ≠ .none := by
            rw [hstep]
            intro h
            have := congrArg Pending.need h
            dsimp only [Pending.none] at this
            omega
          obtain ⟨c, rest, hfrom, hrest⟩ := ih (valid_step p b) hnone
          refine ⟨c, rest, ?_, ?_⟩
          · rw [hcons, hfrom, hstep]
            rfl
          · rw [hover, hdec, hrest, List.replicate_succ, List.cons_append]
      · have hstep : step p b = (replacement :: (lead b.toNat).1, (lead b.toNat).2) := by
          rw [step, if_neg (by omega), if_neg hin]
        refine ⟨replacement, decode (b :: bs), ?_, ?_⟩
        · rw [hcons, hstep, List.cons_append]
          congr 1
          show _ = decodeFrom .none (b :: bs)
          unfold decodeFrom
          rw [run, List.append_assoc]
          rfl
        · rw [overhang, if_neg (fun h => hin h.2)]
          rfl

/-- The last bytes of a text, decoded alone: what the decode of the whole shows of the characters
that begin in them, behind the replaced rest of the character that was cut. -/
theorem decode_suffix (a b : List UInt8) :
    decode b = List.replicate (overhang (run .none a).2 b) replacement ++
      (decode (a ++ b)).drop (decode a).length := by
  by_cases hclean : Clean a
  · have hnone : (run .none a).2 = .none := hclean
    rw [hnone, overhang_none, decode_append_of_clean hclean, List.drop_left]
    rfl
  · obtain ⟨c, rest, hfrom, hrest⟩ := decodeFrom_overhang (valid_run (.inl rfl) a) hclean b
    rw [hrest, decode_append, hfrom, decode_of_not_clean hclean, List.length_append,
      List.length_singleton, ← List.drop_drop, List.drop_left]
    rfl

example : decode [0x68, 0xE6, 0x97, 0xA5, 0xE6, 0x9C] = ['h', '日', replacement] := by decide

end Utf8
