import FreeToken.Server.FunctionCallParser
import FreeToken.Lib.JsonText

/-!
# The array of a Mistral tool call

`MistralDetector._extract_json_array` counts brackets outside strings.  On a JSON array its count comes
back to zero at the last bracket and not before.
-/

set_option autoImplicit false

namespace FreeToken

namespace MistralDetector

open JsonText Search

def botToken : Text := "[TOOL_CALLS] [".toList

/-- The loop over the characters; the result is how many it has taken, the closing bracket included. -/
def scan : Int → Bool → Bool → Text → Option Nat
  | _, _, _, [] => none
  | bracketCount, inString, escapeNext, char :: t =>
      if escapeNext then (scan bracketCount inString false t).map (· + 1)
      else if char = '\\' then (scan bracketCount inString true t).map (· + 1)
      else if char = '"' then (scan bracketCount (!inString) false t).map (· + 1)
      else if inString then (scan bracketCount inString false t).map (· + 1)
      else if char = '[' then (scan (bracketCount + 1) inString false t).map (· + 1)
      else if char = ']' then
        if bracketCount - 1 = 0 then some 1
        else (scan (bracketCount - 1) inString false t).map (· + 1)
      else (scan bracketCount inString false t).map (· + 1)

/-- `_extract_json_array` -/
def extractJsonArray (text : Text) : Option Text :=
  match find botToken text with
  | none => none
  | some startIdx =>
      let jsonStart := startIdx + botToken.length - 1
      (scan 0 false false (text.drop jsonStart)).map fun n => (text.drop jsonStart).take n

/-! ## Texts that leave the scanner as it was -/

/-- Inside brackets the scanner goes over the text and comes back to the same state. -/
def Neutral (w : Text) : Prop :=
  ∀ (d : Int) (rest : Text), 0 < d →
    scan d false false (w ++ rest) = (scan d false false rest).map (· + w.length)

/-- The same within a string. -/
def NeutralInString (w : Text) : Prop :=
  ∀ (d : Int) (rest : Text),
    scan d true false (w ++ rest) = (scan d true false rest).map (· + w.length)

theorem map_map_add (x : Option Nat) (a b : Nat) :
    (x.map (· + a)).map (· + b) = x.map (· + (a + b)) := by
  cases x with
  | none => rfl
  | some n => exact congrArg some (Nat.add_assoc n a b)

theorem neutral_nil : Neutral [] := by
  intro d rest _
  exact (Option.map_id' ..).symm

theorem Neutral.append {v w : Text} (hv : Neutral v) (hw : Neutral w) : Neutral (v ++ w) := by
  intro d rest hd
  rw [List.append_assoc, hv d _ hd, hw d _ hd, map_map_add, List.length_append, Nat.add_comm v.length]

theorem neutral_plain {w : Text} (h : ∀ c ∈ w, isPlain c = true) : Neutral w := by
  induction w with
  | nil => exact neutral_nil
  | cons c w ih =>
      intro d rest hd
      have hc := h c List.mem_cons_self
      unfold isPlain at hc
      simp only [Bool.and_eq_true, decide_eq_true_eq] at hc
      obtain ⟨⟨⟨hquote, hback⟩, hopen⟩, hclose⟩ := hc
      rw [List.cons_append, scan, if_neg (by decide), if_neg hback, if_neg hquote,
        if_neg (by decide), if_neg hopen, if_neg hclose,
        ih (fun c hc => h c (List.mem_cons_of_mem _ hc)) d rest hd, map_map_add]
      rfl

theorem neutral_char {c : Char} (h : isPlain c = true) : Neutral [c] := by
  apply neutral_plain
  intro d hd
  rw [List.mem_singleton.mp hd]
  exact h

theorem neutral_blank {ws : Text} (h : Blank ws) : Neutral ws :=
  neutral_plain fun c hc => isPlain_of_isWs (h c hc)

/-- A backslash takes the next character with it. -/
theorem scan_escape (d : Int) (e : Char) (t : Text) :
    scan d true false ('\\' :: e :: t) = (scan d true false t).map (· + 2) := by
  rw [scan, if_neg (by decide), if_pos rfl, scan, if_pos rfl, map_map_add]

theorem scan_inString {d : Int} {c : Char} (hback : c ≠ '\\') (hquote : c ≠ '"') (t : Text) :
    scan d true false (c :: t) = (scan d true false t).map (· + 1) := by
  rw [scan, if_neg (by decide), if_neg hback, if_neg hquote, if_pos rfl]

theorem hexVal_plain {c : Char} (h : (Json.hexVal c).isSome = true) : c ≠ '\\' ∧ c ≠ '"' := by
  constructor
  · rintro rfl
    exact absurd h (by decide)
  · rintro rfl
    exact absurd h (by decide)

theorem neutral_stringBody {s : Text} (h : StringBody s) : NeutralInString s := by
  induction h with
  | nil =>
      intro d rest
      exact (Option.map_id' ..).symm
  | plain hquote hback _ _ ih =>
      intro d rest
      rw [List.cons_append, scan_inString hback hquote, ih, map_map_add]
      rfl
  | escape _ _ ih =>
      intro d rest
      rw [List.cons_append, List.cons_append, scan_escape, ih, map_map_add]
      rfl
  | @unicode a b c e s hhex _ ih =>
      intro d rest
      have hne : ∀ x ∈ [a, b, c, e], x ≠ '\\' ∧ x ≠ '"' := fun x hx => hexVal_plain (hhex x hx)
      have ha := hne a (by simp)
      have hb := hne b (by simp)
      have hc := hne c (by simp)
      have he := hne e (by simp)
      show scan d true false ('\\' :: 'u' :: a :: b :: c :: e :: (s ++ rest)) = _
      rw [scan_escape, scan_inString ha.1 ha.2, scan_inString hb.1 hb.2, scan_inString hc.1 hc.2,
        scan_inString he.1 he.2, ih, map_map_add, map_map_add, map_map_add, map_map_add, map_map_add]
      rfl

theorem neutral_quoted {s : Text} (h : StringBody s) : Neutral ('"' :: (s ++ ['"'])) := by
  intro d rest _
  rw [List.cons_append, List.append_assoc, scan, if_neg (by decide), if_neg (by decide), if_pos rfl]
  show (scan d true false (s ++ ('"' :: rest))).map (· + 1) = _
  rw [neutral_stringBody h, scan, if_neg (by decide), if_neg (by decide), if_pos rfl]
  show ((((scan d false false rest).map (· + 1)).map _).map _) = _
  rw [map_map_add, map_map_add, List.length_cons, List.length_append]
  congr 1
  funext n
  show n + (1 + s.length + 1) = n + (s.length + 1 + 1)
  omega

/-- What the opening bracket adds the closing one takes off. -/
theorem neutral_brackets {body : Text} (h : Neutral body) : Neutral ('[' :: (body ++ [']'])) := by
  intro d rest hd
  rw [List.cons_append, List.append_assoc, scan, if_neg (by decide), if_neg (by decide),
    if_neg (by decide), if_neg (by decide), if_pos rfl, h (d + 1) _ (by omega)]
  show ((scan (d + 1) false false (']' :: rest)).map _).map _ = _
  rw [scan, if_neg (by decide), if_neg (by decide), if_neg (by decide), if_neg (by decide),
    if_neg (by decide), if_pos rfl, if_neg (by omega), show d + 1 - 1 = d by omega, map_map_add,
    map_map_add, List.length_cons, List.length_append]
  congr 1
  funext n
  show n + (1 + (body.length + 1)) = n + (body.length + 1 + 1)
  omega

theorem neutral_braces {body : Text} (h : Neutral body) : Neutral ('{' :: (body ++ ['}'])) :=
  (neutral_char (by decide)).append (h.append (neutral_char (by decide)))

/-! ## Values -/

mutual

theorem neutral_value {w : Text} : Value w → Neutral w
  | .scalar h => neutral_plain h.plain
  | .string h => neutral_quoted h
  | .emptyArray h => neutral_brackets (neutral_blank h)
  | .array h => neutral_brackets (neutral_items h)
  | .emptyObject h => neutral_braces (neutral_blank h)
  | .object h => neutral_braces (neutral_members h)

theorem neutral_items {w : Text} : Items w → Neutral w
  | .last hws hv hws' => (neutral_blank hws).append ((neutral_value hv).append (neutral_blank hws'))
  | .more hws hv hws' hrest =>
      (neutral_blank hws).append ((neutral_value hv).append ((neutral_blank hws').append
        ((neutral_char (by decide)).append (neutral_items hrest))))

theorem neutral_members {w : Text} : Members w → Neutral w
  | .last hws hk hws₁ hws₂ hv hws₃ =>
      (neutral_blank hws).append ((neutral_quoted hk).append ((neutral_blank hws₁).append
        ((neutral_char (by decide)).append ((neutral_blank hws₂).append
          ((neutral_value hv).append (neutral_blank hws₃))))))
  | .more hws hk hws₁ hws₂ hv hws₃ hrest =>
      (neutral_blank hws).append ((neutral_quoted hk).append ((neutral_blank hws₁).append
        ((neutral_char (by decide)).append ((neutral_blank hws₂).append
          ((neutral_value hv).append ((neutral_blank hws₃).append
            ((neutral_char (by decide)).append (neutral_members hrest))))))))

end

/-- From its first bracket on the scanner takes exactly the array. -/
theorem scan_array {a : Text} (h : IsArray a) (rest : Text) :
    scan 0 false false (a ++ rest) = some a.length := by
  have hbody : ∀ {body : Text}, Neutral body →
      scan 0 false false ('[' :: (body ++ [']']) ++ rest) =
        some ('[' :: (body ++ [']'])).length := by
    intro body hneutral
    rw [List.cons_append, List.append_assoc, scan, if_neg (by decide), if_neg (by decide),
      if_neg (by decide), if_neg (by decide), if_pos rfl, hneutral (0 + 1) _ (by decide)]
    show ((scan (0 + 1) false false (']' :: rest)).map _).map _ = _
    rw [scan, if_neg (by decide), if_neg (by decide), if_neg (by decide), if_neg (by decide),
      if_neg (by decide), if_pos rfl, if_pos (by decide), map_map_add, List.length_cons,
      List.length_append]
    show some (1 + (body.length + 1)) = some (body.length + 1 + 1)
    congr 1
    omega
  cases h with
  | empty hws => exact hbody (neutral_blank hws)
  | items hitems => exact hbody (neutral_items hitems)

/-! ## Texts that end inside an array -/

/-- What the scanner has decided does not depend on what follows. -/
theorem scan_append {x : Text} (y : Text) : ∀ {d : Int} {inString escapeNext : Bool} {n : Nat},
    scan d inString escapeNext x = some n →
      scan d inString escapeNext (x ++ y) = some n ∧ n ≤ x.length := by
  induction x with
  | nil =>
      intro d inString escapeNext n h
      cases h
  | cons c x ih =>
      have hstep : ∀ {d : Int} {inString escapeNext : Bool} {n : Nat},
          (scan d inString escapeNext x).map (· + 1) = some n →
          (scan d inString escapeNext (x ++ y)).map (· + 1) = some n ∧ n ≤ (c :: x).length := by
        intro d inString escapeNext n h
        obtain ⟨m, hm, rfl⟩ := Option.map_eq_some_iff.mp h
        obtain ⟨hrun, hle⟩ := ih hm
        rw [hrun]
        exact ⟨rfl, Nat.succ_le_succ hle⟩
      intro d inString escapeNext n h
      rw [List.cons_append]
      unfold scan at h ⊢
      split_ifs at h ⊢
      all_goals first
        | exact hstep h
        | exact ⟨h, by rw [← Option.some.inj h]; exact Nat.succ_le_succ (Nat.zero_le _)⟩

theorem scan_of_append {x ext : Text} (hext : ext ≠ []) (h : IsArray (x ++ ext)) :
    scan 0 false false x = none := by
  cases hx : scan 0 false false x with
  | none => rfl
  | some n =>
      obtain ⟨hrun, hle⟩ := scan_append ext hx
      have hall := scan_array h []
      rw [List.append_nil, hrun, Option.some.injEq, List.length_append] at hall
      have := List.length_pos_iff.mpr hext
      omega

/-! ## The extraction -/

/-- The marker, its bracket being the first of what follows. -/
theorem drop_marker {pre tail : Text} :
    (pre ++ ("[TOOL_CALLS] ".toList ++ tail)).drop (pre.length + botToken.length - 1) = tail := by
  have hlen : pre.length + botToken.length - 1 = pre.length + "[TOOL_CALLS] ".toList.length := rfl
  rw [hlen, ← List.append_assoc, ← List.length_append, List.drop_left]

/-- The extraction agrees with JSON where the first marker stands: an array that begins at its bracket is
returned whole, whatever follows, and a text that ends inside one gives nothing. -/
theorem extractJsonArray_spec (pre tail : Text)
    (hfirst : find botToken (pre ++ ("[TOOL_CALLS] ".toList ++ tail)) = some pre.length) :
    (∀ a rest, tail = a ++ rest → IsArray a →
      extractJsonArray (pre ++ ("[TOOL_CALLS] ".toList ++ tail)) = some a) ∧
    ((∃ ext, ext ≠ [] ∧ IsArray (tail ++ ext)) →
      extractJsonArray (pre ++ ("[TOOL_CALLS] ".toList ++ tail)) = none) := by
  have hrun : extractJsonArray (pre ++ ("[TOOL_CALLS] ".toList ++ tail)) =
      (scan 0 false false tail).map fun n => tail.take n := by
    unfold extractJsonArray
    rw [hfirst]
    dsimp only
    rw [drop_marker]
  rw [hrun]
  constructor
  · intro a rest htail ha
    rw [htail, scan_array ha]
    show some ((a ++ rest).take a.length) = some a
    rw [List.take_left]
  · intro h
    obtain ⟨ext, hext, ha⟩ := h
    rw [scan_of_append hext ha]
    rfl

/-- An array of one string that holds a bracket and an escaped quote, and text behind it. -/
theorem extractJsonArray_spec_quoted :
    extractJsonArray "[TOOL_CALLS] [\"]\\\"\"] ok".toList = some "[\"]\\\"\"]".toList ∧
    extractJsonArray "[TOOL_CALLS] [\"]\\\"".toList = none := by
  have hbody : StringBody [']', '\\', '"'] :=
    .plain (by decide) (by decide) (by decide) (.escape (by decide) .nil)
  have harray : IsArray "[\"]\\\"\"]".toList :=
    .items (@Items.last [] _ [] (fun _ h => absurd h List.not_mem_nil) (.string hbody)
      (fun _ h => absurd h List.not_mem_nil))
  constructor
  · have h := extractJsonArray_spec [] "[\"]\\\"\"] ok".toList (by decide)
    exact h.1 _ " ok".toList rfl harray
  · have h := extractJsonArray_spec [] "[\"]\\\"".toList (by decide)
    exact h.2 ⟨"\"]".toList, by decide, harray⟩

end MistralDetector

end FreeToken
