import FreeToken.Lib.Json

/-!
# The grammar of JSON texts

Which texts are values, with all the whitespace and all the escapes that the grammar admits.
-/

set_option autoImplicit false

namespace JsonText

open Json

def Blank (w : List Char) : Prop := ∀ c ∈ w, isWs c = true

/-- What stands between the quotes of a string. -/
inductive StringBody : List Char → Prop
  | nil : StringBody []
  | plain {c : Char} {s : List Char} : c ≠ '"' → c ≠ '\\' → 32 ≤ c.toNat → StringBody s →
      StringBody (c :: s)
  | escape {e : Char} {s : List Char} : e ∈ ['"', '\\', '/', 'b', 'f', 'n', 'r', 't'] →
      StringBody s → StringBody ('\\' :: e :: s)
  | unicode {a b c d : Char} {s : List Char} : (∀ x ∈ [a, b, c, d], (hexVal x).isSome = true) →
      StringBody s → StringBody ('\\' :: 'u' :: a :: b :: c :: d :: s)

def IsScalar (w : List Char) : Prop :=
  w ∈ ["null".toList, "true".toList, "false".toList] ∨ IsLiteral w

mutual

inductive Value : List Char → Prop
  | scalar {w : List Char} : IsScalar w → Value w
  | string {s : List Char} : StringBody s → Value ('"' :: (s ++ ['"']))
  | emptyArray {ws : List Char} : Blank ws → Value ('[' :: (ws ++ [']']))
  | array {body : List Char} : Items body → Value ('[' :: (body ++ [']']))
  | emptyObject {ws : List Char} : Blank ws → Value ('{' :: (ws ++ ['}']))
  | object {body : List Char} : Members body → Value ('{' :: (body ++ ['}']))

/-- The items of an array, one or more. -/
inductive Items : List Char → Prop
  | last {ws v ws' : List Char} : Blank ws → Value v → Blank ws' → Items (ws ++ (v ++ ws'))
  | more {ws v ws' rest : List Char} : Blank ws → Value v → Blank ws' → Items rest →
      Items (ws ++ (v ++ (ws' ++ ',' :: rest)))

/-- The members of an object, one or more. -/
inductive Members : List Char → Prop
  | last {ws k ws₁ ws₂ v ws₃ : List Char} : Blank ws → StringBody k → Blank ws₁ → Blank ws₂ →
      Value v → Blank ws₃ →
      Members (ws ++ ('"' :: (k ++ ['"']) ++ (ws₁ ++ ':' :: (ws₂ ++ (v ++ ws₃)))))
  | more {ws k ws₁ ws₂ v ws₃ rest : List Char} : Blank ws → StringBody k → Blank ws₁ → Blank ws₂ →
      Value v → Blank ws₃ → Members rest →
      Members (ws ++ ('"' :: (k ++ ['"']) ++ (ws₁ ++ ':' :: (ws₂ ++ (v ++ (ws₃ ++ ',' :: rest))))))

end

/-- The text of an array, without anything around it. -/
inductive IsArray : List Char → Prop
  | empty {ws : List Char} : Blank ws → IsArray ('[' :: (ws ++ [']']))
  | items {body : List Char} : Items body → IsArray ('[' :: (body ++ [']']))

/-! ## The characters of a scalar -/

/-- Neither a quote nor a backslash nor a square bracket. -/
def isPlain (c : Char) : Bool := c ≠ '"' && c ≠ '\\' && c ≠ '[' && c ≠ ']'

theorem isPlain_of_isWs {c : Char} (h : isWs c = true) : isPlain c = true := by
  unfold isWs at h
  simp only [Bool.or_eq_true, decide_eq_true_eq] at h
  rcases h with ((rfl | rfl) | rfl) | rfl <;> decide

theorem isPlain_of_isDigit {c : Char} (h : isDigit c = true) : isPlain c = true := by
  unfold isDigit at h
  simp only [Bool.and_eq_true, decide_eq_true_eq] at h
  have hq : ¬ '0' ≤ '"' := by decide
  have hb : ¬ '\\' ≤ '9' := by decide
  have ho : ¬ '[' ≤ '9' := by decide
  have hc : ¬ ']' ≤ '9' := by decide
  unfold isPlain
  simp only [Bool.and_eq_true, decide_eq_true_eq]
  refine ⟨⟨⟨?_, ?_⟩, ?_⟩, ?_⟩
  · rintro rfl
    exact hq h.1
  · rintro rfl
    exact hb h.2
  · rintro rfl
    exact ho h.2
  · rintro rfl
    exact hc h.2

theorem takeWhile_digit_plain (t : List Char) : ∀ c ∈ t.takeWhile isDigit, isPlain c = true :=
  fun c hc => isPlain_of_isDigit (List.all_eq_true.mp List.all_takeWhile c hc)

theorem sign_plain (t : List Char) : ∀ c ∈ (sign t).1, isPlain c = true := by
  unfold sign
  split
  · exact fun c hc => List.mem_singleton.mp hc ▸ rfl
  · exact fun c hc => List.mem_singleton.mp hc ▸ rfl
  · exact fun c hc => absurd hc List.not_mem_nil

theorem exponent_plain {lit t : List Char} (h : ∀ c ∈ lit, isPlain c = true) :
    ∀ c ∈ (exponent lit t).1, isPlain c = true := by
  unfold exponent
  split
  · rename_i e r
    split
    · rename_i he
      intro c hc
      rcases List.mem_append.mp hc with hc | hc
      · exact h c hc
      · rcases List.mem_cons.mp hc with rfl | hc
        · rcases he.1 with rfl | rfl <;> decide
        · rcases List.mem_append.mp hc with hc | hc
          · exact sign_plain r c hc
          · exact takeWhile_digit_plain _ c hc
    · exact h
  · exact h

theorem fraction_plain {lit t : List Char} (h : ∀ c ∈ lit, isPlain c = true) :
    ∀ c ∈ (fraction lit t).1, isPlain c = true := by
  unfold fraction
  split
  · rename_i r
    split
    · exact exponent_plain h
    · apply exponent_plain
      intro c hc
      rcases List.mem_append.mp hc with hc | hc
      · exact h c hc
      · rcases List.mem_cons.mp hc with rfl | hc
        · decide
        · exact takeWhile_digit_plain _ c hc
  · exact exponent_plain h

theorem unsigned_plain {sg t lit r : List Char} (hsg : ∀ c ∈ sg, isPlain c = true)
    (h : unsigned sg t = some (lit, r)) : ∀ c ∈ lit, isPlain c = true := by
  unfold unsigned at h
  split at h
  · cases h
  · rename_i c t
    split at h
    · have hlit : (fraction (sg ++ ['0']) t).1 = lit := congrArg Prod.fst (Option.some.inj h)
      rw [← hlit]
      apply fraction_plain
      intro d hd
      rcases List.mem_append.mp hd with hd | hd
      · exact hsg d hd
      · rw [List.mem_singleton.mp hd]
        decide
    · split at h
      · rename_i hc
        have hlit : (fraction (sg ++ c :: t.takeWhile isDigit) (t.dropWhile isDigit)).1 = lit :=
          congrArg Prod.fst (Option.some.inj h)
        rw [← hlit]
        apply fraction_plain
        intro d hd
        rcases List.mem_append.mp hd with hd | hd
        · exact hsg d hd
        · rcases List.mem_cons.mp hd with rfl | hd
          · exact isPlain_of_isDigit hc
          · exact takeWhile_digit_plain _ d hd
      · cases h

theorem number_plain {t lit r : List Char} (h : number t = some (lit, r)) :
    ∀ c ∈ lit, isPlain c = true := by
  unfold number at h
  split at h
  · exact unsigned_plain (fun c hc => List.mem_singleton.mp hc ▸ rfl) h
  · exact unsigned_plain (fun c hc => absurd hc List.not_mem_nil) h

theorem IsScalar.plain {w : List Char} (h : IsScalar w) : ∀ c ∈ w, isPlain c = true := by
  rcases h with hword | hspecial | hnumber
  · have hall : ∀ w ∈ ["null".toList, "true".toList, "false".toList],
        w.all isPlain = true := by decide
    exact List.all_eq_true.mp (hall w hword)
  · have hall : ∀ w ∈ ["NaN".toList, "Infinity".toList, "-Infinity".toList],
        w.all isPlain = true := by decide
    exact List.all_eq_true.mp (hall w hspecial)
  · exact number_plain hnumber

end JsonText
