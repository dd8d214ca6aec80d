import FreeToken.Tokenizer.Detokenize

/-!
# What a token sequence lets the detokenizer show

Functions of the ids of a request alone.  The settled text ends at the last token after which the
decode did not end in a replacement character; behind it only the printable beginning is shown.
-/

set_option autoImplicit false

namespace FreeToken

open Search

namespace Readable

variable (bytes : Token → List UInt8)

def decode (ids : List Token) : Text := Utf8.decode (ids.flatMap bytes)

/-- The decode without an incomplete character at its end. -/
def complete (ids : List Token) : Text := Utf8.complete (ids.flatMap bytes)

/-- The decode ends in a replacement character. -/
def Ragged (ids : List Token) : Prop := (decode bytes ids).getLast? = some Utf8.replacement

instance (ids : List Token) : Decidable (Ragged bytes ids) :=
  inferInstanceAs (Decidable (_ = _))

/-- The settled text of the reversed ids. -/
def settledRev : List Token → Text
  | [] => []
  | t :: rest =>
      if Ragged bytes (t :: rest).reverse then settledRev rest
      else decode bytes (t :: rest).reverse

def settled (ids : List Token) : Text := settledRev bytes ids.reverse

/-- The text that may be shown after these ids. -/
def shown (ids : List Token) : Text :=
  if Ragged bytes ids then
    settled bytes ids ++ findPrintableText ((decode bytes ids).drop (settled bytes ids).length)
  else decode bytes ids

/-- How much of it is safe to send while more tokens follow. -/
def released (stops : List Text) (ids : List Token) : Nat :=
  (shown bytes ids).length - stopPrefixHoldback (shown bytes ids) stops

def sentRev (stops : List Text) : List Token → Nat
  | [] => 0
  | t :: rest => max (sentRev stops rest) (released bytes stops (t :: rest).reverse)

/-- The most that was safe to send after a beginning of the ids. -/
def sent (stops : List Text) (ids : List Token) : Nat := sentRev bytes stops ids.reverse

theorem decode_nil : decode bytes [] = [] := rfl

theorem settled_nil : settled bytes [] = [] := rfl

theorem settled_concat (ids : List Token) (t : Token) :
    settled bytes (ids ++ [t]) =
      if Ragged bytes (ids ++ [t]) then settled bytes ids else decode bytes (ids ++ [t]) := by
  unfold settled
  rw [List.reverse_concat, settledRev, ← List.reverse_concat, List.reverse_reverse]

theorem sent_concat (stops : List Text) (ids : List Token) (t : Token) :
    sent bytes stops (ids ++ [t]) =
      max (sent bytes stops ids) (released bytes stops (ids ++ [t])) := by
  unfold sent
  rw [List.reverse_concat, sentRev, ← List.reverse_concat, List.reverse_reverse]

theorem complete_grows (ids rest : List Token) :
    complete bytes ids <+: complete bytes (ids ++ rest) := by
  unfold complete
  rw [List.flatMap_append]
  exact Utf8.complete_grows _ _

/-- The decode is the complete text, or the complete text and one replacement character. -/
theorem decode_cases (ids : List Token) :
    decode bytes ids = complete bytes ids ∨
      decode bytes ids = complete bytes ids ++ [Utf8.replacement] := by
  by_cases h : Utf8.Clean (ids.flatMap bytes)
  · exact .inl (Utf8.decode_of_clean h)
  · exact .inr (Utf8.decode_of_not_clean h)

theorem complete_prefix_decode (ids : List Token) : complete bytes ids <+: decode bytes ids := by
  rcases decode_cases bytes ids with h | h
  · rw [h]
  · rw [h]
    exact List.prefix_append _ _

theorem decode_of_not_ragged {ids : List Token} (h : ¬ Ragged bytes ids) :
    decode bytes ids = complete bytes ids :=
  Utf8.decode_of_clean (Utf8.clean_of_getLast? h)

/-- The settled text does not end in a replacement character. -/
theorem settled_getLast? (ids : List Token) :
    (settled bytes ids).getLast? ≠ some Utf8.replacement := by
  induction ids using List.reverseRecOn with
  | nil => simp [settled_nil]
  | append_singleton ids t ih =>
      rw [settled_concat]
      split
      · exact ih
      · assumption

theorem settled_of_not_ragged {ids : List Token} (h : ¬ Ragged bytes ids) :
    settled bytes ids = decode bytes ids := by
  cases ids using List.reverseRecOn with
  | nil => rfl
  | append_singleton ids t => rw [settled_concat, if_neg h]

theorem settled_begins (ids : List Token) : settled bytes ids <+: complete bytes ids := by
  induction ids using List.reverseRecOn with
  | nil => exact List.nil_prefix
  | append_singleton ids t ih =>
      rw [settled_concat]
      split
      · exact ih.trans (complete_grows bytes ids [t])
      · rename_i h
        rw [decode_of_not_ragged bytes h]

/-! ## The printable beginning of a ragged text -/

theorem isChineseChar_replacement : isChineseChar Utf8.replacement = false := by decide

theorem findPrintableText_ragged (x : Text) :
    findPrintableText (x ++ [Utf8.replacement]) =
      if x.getLast?.any isChineseChar then x else x.rdropWhile fun c => c ≠ ' ' := by
  have hnl : Utf8.replacement ≠ '\n' := by decide
  have hsp : Utf8.replacement ≠ ' ' := by decide
  unfold findPrintableText
  rw [List.getLast?_concat, List.dropLast_concat, if_neg (by simpa using hnl),
    Option.any_some, isChineseChar_replacement, if_neg (by decide), List.rdropWhile_concat_pos]
  simpa using hsp

theorem findPrintableText_begins (x : Text) :
    findPrintableText (x ++ [Utf8.replacement]) <+: x := by
  rw [findPrintableText_ragged]
  split
  · exact List.prefix_rfl
  · exact List.rdropWhile_prefix _ _

theorem rdropWhile_ne_of_getLast? {p : Char → Bool} {x : Text} {c : Char} (h : x.getLast? = some c)
    (hc : p c = true) : x.rdropWhile p ≠ x := by
  obtain ⟨y, rfl⟩ := List.getLast?_eq_some_iff.1 h
  rw [List.rdropWhile_concat_pos _ _ _ hc]
  intro heq
  have hle := (List.rdropWhile_prefix p y).length_le
  rw [heq] at hle
  simp at hle

variable {bytes}

theorem Ragged.eq_append {ids : List Token} (h : Ragged bytes ids) :
    ∃ x, decode bytes ids = x ++ [Utf8.replacement] := by
  obtain ⟨x, hx⟩ := List.getLast?_eq_some_iff.1 h
  exact ⟨x, hx⟩

/-- Behind the settled text of a ragged decode there is more than one replacement character less. -/
theorem Ragged.tail {ids : List Token} (h : Ragged bytes ids) :
    ∃ x, decode bytes ids = settled bytes ids ++ (x ++ [Utf8.replacement]) := by
  obtain ⟨y, hy⟩ := h.eq_append
  obtain ⟨z, hz⟩ := (settled_begins bytes ids).trans (complete_prefix_decode bytes ids)
  have hne : z ≠ [] := by
    rintro rfl
    rw [List.append_nil] at hz
    exact settled_getLast? bytes ids (hz ▸ h)
  obtain ⟨x, c, rfl⟩ := (List.eq_nil_or_concat' z).resolve_left hne
  rw [← hz, ← List.append_assoc] at hy
  have hc : c = Utf8.replacement := by
    have := congrArg List.getLast? hy
    simpa using this
  exact ⟨x, by rw [← hz, hc]⟩

theorem shown_of_ragged {ids : List Token} (h : Ragged bytes ids) {x : Text}
    (hx : decode bytes ids = settled bytes ids ++ (x ++ [Utf8.replacement])) :
    shown bytes ids = settled bytes ids ++ findPrintableText (x ++ [Utf8.replacement]) := by
  rw [shown, if_pos h, hx, List.drop_left]

variable (bytes)

/-- Only complete characters are shown. -/
theorem shown_begins (ids : List Token) : shown bytes ids <+: complete bytes ids := by
  by_cases h : Ragged bytes ids
  · obtain ⟨x, hx⟩ := h.tail
    rw [shown_of_ragged h hx]
    have hpre : settled bytes ids ++ x <+: complete bytes ids := by
      rcases decode_cases bytes ids with hd | hd
      · rw [← hd, hx, ← List.append_assoc]
        exact List.prefix_append _ _
      · rw [hx, ← List.append_assoc] at hd
        rw [(List.append_inj' hd rfl).1]
    exact (List.prefix_append_right_inj _ |>.2 (findPrintableText_begins x)).trans hpre
  · rw [shown, if_neg h, decode_of_not_ragged bytes h]

theorem released_le (stops : List Text) (ids : List Token) :
    released bytes stops ids ≤ (shown bytes ids).length := Nat.sub_le _ _

theorem sent_le (stops : List Text) (ids : List Token) :
    sent bytes stops ids ≤ (complete bytes ids).length := by
  induction ids using List.reverseRecOn with
  | nil => exact Nat.zero_le _
  | append_singleton ids t ih =>
      rw [sent_concat]
      refine max_le (ih.trans (complete_grows bytes ids [t]).length_le) ?_
      exact (released_le bytes stops _).trans (shown_begins bytes _).length_le

variable {bytes}

/-- Nothing that begins a stop string of a later text was released before. -/
theorem released_le_of_occursAt {stops : List Text} {ids : List Token}
    (hfree : ∀ stop ∈ stops, find stop (decode bytes ids) = none) {text stop : Text}
    (hpre : complete bytes ids <+: text) (hstop : stop ∈ stops) {p : Nat}
    (hocc : OccursAt stop text p) : released bytes stops ids ≤ p := by
  by_contra hlt
  have hrel := released_le bytes stops ids
  have hlen : p < (shown bytes ids).length := by omega
  obtain ⟨rest, hrest⟩ := (shown_begins bytes ids).trans hpre
  -- the occurrence goes beyond what is shown
  have hlong : (shown bytes ids).length < p + stop.length := by
    by_contra hle
    have hin : OccursAt stop (shown bytes ids) p :=
      OccursAt.of_append (hrest ▸ hocc) (by omega)
    obtain ⟨tail, htail⟩ := (shown_begins bytes ids).trans (complete_prefix_decode bytes ids)
    exact find_eq_none.1 (hfree stop hstop) p (htail ▸ hin.append tail)
  have hsuf : stop.take ((shown bytes ids).length - p) <:+ shown bytes ids := by
    have heq : stop.take ((shown bytes ids).length - p) = (shown bytes ids).drop p := by
      have hdrop : text.drop p = (shown bytes ids).drop p ++ rest := by
        rw [← hrest, List.drop_append_of_le_length hlen.le]
      have hpfx : stop <+: (shown bytes ids).drop p ++ rest := hdrop ▸ hocc
      obtain ⟨z, hz⟩ := hpfx
      have := congrArg (List.take ((shown bytes ids).length - p)) hz
      rw [List.take_append_of_le_length (by omega),
        List.take_left' (by rw [List.length_drop])] at this
      exact this
    rw [heq]
    exact List.drop_suffix _ _
  have hmax := partialSuffix_max hstop (by omega) hsuf
  unfold released stopPrefixHoldback at hlt
  omega

/-- Text that was all shown stays shown. -/
theorem shown_concat {ids : List Token} {t : Token}
    (h : shown bytes ids = complete bytes (ids ++ [t])) :
    shown bytes (ids ++ [t]) = complete bytes (ids ++ [t]) := by
  have hpre := shown_begins bytes ids
  have hC : complete bytes ids = complete bytes (ids ++ [t]) :=
    (complete_grows bytes ids [t]).eq_of_length_le (by rw [← h]; exact hpre.length_le)
  by_cases h' : Ragged bytes (ids ++ [t])
  · obtain ⟨x, hx⟩ := h'.tail
    rw [shown_of_ragged h' hx, ← hC]
    have hset := settled_concat bytes ids t
    rw [if_pos h'] at hset
    rw [hset] at hx ⊢
    have hcases := decode_cases bytes (ids ++ [t])
    rw [hx, ← hC] at hcases
    by_cases hr : Ragged bytes ids
    · obtain ⟨y, hy⟩ := hr.tail
      rw [shown_of_ragged hr hy, ← hC] at h
      -- everything before the last replacement character was printable
      have hyC : complete bytes ids = settled bytes ids ++ y := by
        rcases decode_cases bytes ids with hd | hd
        · have hlen := (findPrintableText_begins y).length_le
          have := congrArg List.length (h.trans (hd.symm.trans hy))
          simp only [List.length_append, List.length_singleton] at this
          omega
        · rw [hy, ← List.append_assoc] at hd
          exact (List.append_inj' hd rfl).1.symm
      rw [hyC] at h hcases ⊢
      have hprint := List.append_cancel_left h
      rcases hcases with hd | hd
      · -- such a text does not end in another one
        have hyx := List.append_cancel_left hd
        have hlast : y.getLast? = some Utf8.replacement := by
          rw [← hyx, List.getLast?_concat]
        rw [findPrintableText_ragged, hlast, Option.any_some, isChineseChar_replacement,
          if_neg (by decide)] at hprint
        exact absurd hprint (rdropWhile_ne_of_getLast? hlast (by decide))
      · rw [List.append_assoc] at hd
        rw [List.append_cancel_left hd, hprint]
    · have hS : settled bytes ids = complete bytes ids := by
        rw [settled_of_not_ragged bytes hr, decode_of_not_ragged bytes hr]
      rw [hS] at hcases ⊢
      rcases hcases with hd | hd
      · have := congrArg List.length hd
        simp at this
      · have hx' := List.append_cancel_left hd
        rw [hx', ← List.nil_append [Utf8.replacement],
          List.prefix_nil.1 (findPrintableText_begins []), List.append_nil]
  · rw [shown, if_neg h', decode_of_not_ragged bytes h']

/-- If all complete text was safe to send before, it is shown. -/
theorem shown_of_sent {stops : List Text} {ids : List Token}
    (h : sent bytes stops ids = (complete bytes ids).length) :
    shown bytes ids = complete bytes ids := by
  induction ids using List.reverseRecOn with
  | nil => rfl
  | append_singleton ids t ih =>
      have hpre := complete_grows bytes ids [t]
      have hle := sent_le bytes stops ids
      rw [sent_concat] at h
      rcases max_choice (sent bytes stops ids) (released bytes stops (ids ++ [t])) with hm | hm
      · rw [hm] at h
        have hC := hpre.eq_of_length_le (by omega)
        rw [← hC] at h
        exact shown_concat ((ih h).trans hC)
      · rw [hm] at h
        have hrel := released_le bytes stops (ids ++ [t])
        exact (shown_begins bytes _).eq_of_length_le (by omega)

end Readable

end FreeToken
