import Mathlib.Data.List.Basic
import Mathlib.Tactic.IntervalCases

/-!
# JSON texts

A reader of JSON texts and the writer that puts `", "` and `": "` between the parts and leaves
characters outside ASCII as they are.  A number is kept as its literal; `NaN` and the infinities are
literals, as readers of floating point data accept them.
-/

set_option autoImplicit false

inductive Json
  | null
  | bool (b : Bool)
  | num (lit : List Char)
  | str (s : List Char)
  | arr (xs : List Json)
  | obj (ms : List (List Char × Json))

namespace Json

abbrev Member := List Char × Json

def isWs (c : Char) : Bool := c = ' ' || c = '\t' || c = '\n' || c = '\r'

def skipWs (t : List Char) : List Char := t.dropWhile isWs

/-! ## The reader -/

def hexVal (c : Char) : Option Nat :=
  if '0' ≤ c ∧ c ≤ '9' then some (c.toNat - '0'.toNat)
  else if 'a' ≤ c ∧ c ≤ 'f' then some (c.toNat - 'a'.toNat + 10)
  else if 'A' ≤ c ∧ c ≤ 'F' then some (c.toNat - 'A'.toNat + 10)
  else none

def hex4 (a b c d : Char) : Option Nat := do
  let a ← hexVal a
  let b ← hexVal b
  let c ← hexVal c
  let d ← hexVal d
  return ((a * 16 + b) * 16 + c) * 16 + d

/-- The character of a short escape. -/
def shortEscape : Char → Option Char
  | '"' => some '"'
  | '\\' => some '\\'
  | '/' => some '/'
  | 'b' => some '\x08'
  | 'f' => some '\x0c'
  | 'n' => some '\n'
  | 'r' => some '\r'
  | 't' => some '\t'
  | _ => none

/-- The code units of a string after its opening quote, and the text after the closing one. -/
def units : List Char → Option (List Nat × List Char)
  | [] => none
  | '"' :: r => some ([], r)
  | '\\' :: 'u' :: a :: b :: c :: d :: r =>
      match hex4 a b c d with
      | some n => (units r).map fun p => (n :: p.1, p.2)
      | none => none
  | '\\' :: e :: r =>
      match shortEscape e with
      | some c => (units r).map fun p => (c.toNat :: p.1, p.2)
      | none => none
  | c :: r => if c.toNat < 32 then none else (units r).map fun p => (c.toNat :: p.1, p.2)

def isHigh (n : Nat) : Bool := 0xD800 ≤ n && n ≤ 0xDBFF

def isLow (n : Nat) : Bool := 0xDC00 ≤ n && n ≤ 0xDFFF

/-- The characters of a list of code units; a surrogate that is not in a pair is no character. -/
def chars : List Nat → Option (List Char)
  | [] => some []
  | [n] => if isHigh n || isLow n then none else some [Char.ofNat n]
  | n :: m :: r =>
      if isHigh n && isLow m then
        (chars r).map (Char.ofNat (0x10000 + (n - 0xD800) * 1024 + (m - 0xDC00)) :: ·)
      else if isHigh n || isLow n then none
      else (chars (m :: r)).map (Char.ofNat n :: ·)

/-- The string after its opening quote, and the text after the closing one. -/
def string (t : List Char) : Option (List Char × List Char) := do
  let (us, r) ← units t
  let s ← chars us
  return (s, r)

def isDigit (c : Char) : Bool := '0' ≤ c && c ≤ '9'

/-- The sign of an exponent, if it has one, and what follows. -/
def sign : List Char → List Char × List Char
  | '-' :: r => (['-'], r)
  | '+' :: r => (['+'], r)
  | r => ([], r)

/-- An exponent, if one follows the literal. -/
def exponent (lit t : List Char) : List Char × List Char :=
  match t with
  | e :: r =>
      if (e = 'e' ∨ e = 'E') ∧ (sign r).2.takeWhile isDigit ≠ [] then
        (lit ++ e :: ((sign r).1 ++ (sign r).2.takeWhile isDigit), (sign r).2.dropWhile isDigit)
      else (lit, t)
  | [] => (lit, [])

/-- A fraction and an exponent, if they follow the literal. -/
def fraction (lit : List Char) (t : List Char) : List Char × List Char :=
  match t with
  | '.' :: r =>
      if r.takeWhile isDigit = [] then exponent lit t
      else exponent (lit ++ '.' :: r.takeWhile isDigit) (r.dropWhile isDigit)
  | _ => exponent lit t

/-- The digits of a number and what follows them. -/
def unsigned (sign t : List Char) : Option (List Char × List Char) :=
  match t with
  | [] => none
  | c :: r =>
      if c = '0' then some (fraction (sign ++ ['0']) r)
      else if isDigit c then
        some (fraction (sign ++ c :: r.takeWhile isDigit) (r.dropWhile isDigit))
      else none

def number (t : List Char) : Option (List Char × List Char) :=
  match t with
  | '-' :: r => unsigned ['-'] r
  | _ => unsigned [] t

/-- The words that stand for a value. -/
def words : List (List Char × Json) :=
  [("null".toList, .null), ("true".toList, .bool true), ("false".toList, .bool false),
    ("NaN".toList, .num "NaN".toList), ("Infinity".toList, .num "Infinity".toList),
    ("-Infinity".toList, .num "-Infinity".toList)]

def scalar (t : List Char) : Option (Json × List Char) :=
  match words.find? fun w => decide (w.1 <+: t) with
  | some w => some (w.2, t.drop w.1.length)
  | none => (number t).map fun p => (.num p.1, p.2)

mutual

/-- The value the text begins with, and the text after it; the first argument bounds the depth. -/
def value : Nat → List Char → Option (Json × List Char)
  | 0, _ => none
  | _ + 1, '"' :: t => (string t).map fun p => (.str p.1, p.2)
  | n + 1, '{' :: t =>
      match skipWs t with
      | '}' :: r => some (.obj [], r)
      | t => (members n t).map fun p => (.obj p.1, p.2)
  | n + 1, '[' :: t =>
      match skipWs t with
      | ']' :: r => some (.arr [], r)
      | t => (items n t).map fun p => (.arr p.1, p.2)
  | _ + 1, t => scalar t

/-- The members of an object up to its closing brace. -/
def members : Nat → List Char → Option (List Member × List Char)
  | 0, _ => none
  | n + 1, '"' :: t => do
      let (k, r) ← string t
      match skipWs r with
      | ':' :: r => do
          let (v, r) ← value n (skipWs r)
          match skipWs r with
          | '}' :: r => some ([(k, v)], r)
          | ',' :: r => (members n (skipWs r)).map fun p => ((k, v) :: p.1, p.2)
          | _ => none
      | _ => none
  | _ + 1, _ => none

/-- The items of an array up to its closing bracket. -/
def items : Nat → List Char → Option (List Json × List Char)
  | 0, _ => none
  | n + 1, t => do
      let (v, r) ← value n t
      match skipWs r with
      | ']' :: r => some ([v], r)
      | ',' :: r => (items n (skipWs r)).map fun p => (v :: p.1, p.2)
      | _ => none

end

/-- The value a text stands for. -/
def parse (t : List Char) : Option Json :=
  match value (t.length + 1) (skipWs t) with
  | some (v, r) => if skipWs r = [] then some v else none
  | none => none

/-! ## The writer -/

def hexDigit (n : Nat) : Char := "0123456789abcdef".toList.getD n '0'

/-- A character as it stands inside quotes. -/
def escapeChar (c : Char) : List Char :=
  if c = '"' then ['\\', '"']
  else if c = '\\' then ['\\', '\\']
  else if c = '\n' then ['\\', 'n']
  else if c = '\r' then ['\\', 'r']
  else if c = '\t' then ['\\', 't']
  else if c = '\x0c' then ['\\', 'f']
  else if c = '\x08' then ['\\', 'b']
  else if c.toNat < 32 then
    ['\\', 'u', '0', '0', hexDigit (c.toNat / 16), hexDigit (c.toNat % 16)]
  else [c]

def escape (s : List Char) : List Char := s.flatMap escapeChar

def quote (s : List Char) : List Char := '"' :: (escape s ++ ['"'])

/-- Member texts between separators. -/
def joinMembers (sep colon : List Char) : List (List Char × List Char) → List Char
  | [] => []
  | [m] => quote m.1 ++ (colon ++ m.2)
  | m :: ms => quote m.1 ++ (colon ++ (m.2 ++ (sep ++ joinMembers sep colon ms)))

/-- Item texts between separators. -/
def joinItems (sep : List Char) : List (List Char) → List Char
  | [] => []
  | [w] => w
  | w :: ws => w ++ (sep ++ joinItems sep ws)

mutual

/-- The text of a value; the first argument writes a number. -/
def dumps (write : List Char → List Char) : Json → List Char
  | .null => "null".toList
  | .bool true => "true".toList
  | .bool false => "false".toList
  | .num lit => write lit
  | .str s => quote s
  | .arr xs => '[' :: (joinItems ", ".toList (dumpsItems write xs) ++ [']'])
  | .obj ms => '{' :: (joinMembers ", ".toList ": ".toList (dumpsMembers write ms) ++ ['}'])

def dumpsItems (write : List Char → List Char) : List Json → List (List Char)
  | [] => []
  | x :: xs => dumps write x :: dumpsItems write xs

def dumpsMembers (write : List Char → List Char) : List Member → List (List Char × List Char)
  | [] => []
  | (k, x) :: ms => (k, dumps write x) :: dumpsMembers write ms

end

/-! ## Strings -/

theorem hexVal_hexDigit {n : Nat} (h : n < 16) : hexVal (hexDigit n) = some n := by
  interval_cases n <;> rfl

theorem units_escapeChar (c : Char) (r : List Char) :
    units (escapeChar c ++ r) = (units r).map fun p => (c.toNat :: p.1, p.2) := by
  unfold escapeChar
  split_ifs with h₁ h₂ h₃ h₄ h₅ h₆ h₇ h₈
  · subst h₁; rfl
  · subst h₂; rfl
  · subst h₃; rfl
  · subst h₄; rfl
  · subst h₅; rfl
  · subst h₆; rfl
  · subst h₇; rfl
  · have hhex : hex4 '0' '0' (hexDigit (c.toNat / 16)) (hexDigit (c.toNat % 16)) =
        some c.toNat := by
      have h0 : hexVal '0' = some 0 := rfl
      unfold hex4
      rw [hexVal_hexDigit (by omega), hexVal_hexDigit (by omega), h0]
      simp only [Option.bind_eq_bind, Option.bind_some, Option.pure_def, Option.some.injEq]
      omega
    simp only [List.cons_append, List.nil_append, units, hhex]
  · rw [List.singleton_append, units.eq_def]
    split
    · rename_i hnil
      cases hnil
    · rename_i heq
      cases heq
      exact absurd rfl h₁
    · rename_i heq
      cases heq
      exact absurd rfl h₂
    · rename_i heq
      cases heq
      exact absurd rfl h₂
    · rename_i heq
      cases heq
      rw [if_neg h₈]

theorem units_escape (s r : List Char) :
    units (escape s ++ r) = (units r).map fun p => (s.map Char.toNat ++ p.1, p.2) := by
  unfold escape
  induction s with
  | nil =>
      rw [List.flatMap_nil, List.nil_append]
      cases units r <;> rfl
  | cons c s ih =>
      rw [List.flatMap_cons, List.append_assoc, units_escapeChar, ih, Option.map_map]
      rfl

theorem not_surrogate (c : Char) : isHigh c.toNat = false ∧ isLow c.toNat = false := by
  have hvalid := c.valid
  have hnat : c.toNat = c.val.toNat := rfl
  unfold isHigh isLow
  rw [hnat]
  rcases hvalid with h | h
  · constructor <;> simp <;> omega
  · constructor <;> simp <;> omega

theorem chars_map (s : List Char) : chars (s.map Char.toNat) = some s := by
  induction s with
  | nil => rfl
  | cons c s ih =>
      obtain ⟨hhigh, hlow⟩ := not_surrogate c
      cases s with
      | nil => simp [chars, hhigh, hlow]
      | cons c' s =>
          rw [List.map_cons, List.map_cons, chars]
          rw [List.map_cons] at ih
          simp [hhigh, hlow, ih]

/-- The reader gets the string back that was written. -/
theorem string_escape (s r : List Char) : string (escape s ++ '"' :: r) = some (s, r) := by
  unfold string
  rw [units_escape]
  have hunits : units ('"' :: r) = some ([], r) := rfl
  rw [hunits, Option.map_some, List.append_nil]
  simp [chars_map]

/-! ## Numbers -/

/-- What may follow a value. -/
def Stops (r : List Char) : Prop :=
  ∀ c r', r = c :: r' → c = ',' ∨ c = '}' ∨ c = ']' ∨ isWs c = true

theorem stops_nil : Stops [] := fun _ _ h => by cases h

theorem stops_cons {c : Char} {r : List Char}
    (h : c = ',' ∨ c = '}' ∨ c = ']' ∨ isWs c = true) : Stops (c :: r) := by
  intro c' r' heq
  cases heq
  exact h

/-- A value ends where neither a digit nor a part of a number follows. -/
theorem Stops.head {c : Char} {r : List Char} (h : Stops (c :: r)) :
    isDigit c = false ∧ c ≠ '.' ∧ c ≠ 'e' ∧ c ≠ 'E' := by
  rcases h c r rfl with rfl | rfl | rfl | hws
  · decide
  · decide
  · decide
  · simp only [isWs, Bool.or_eq_true, decide_eq_true_eq] at hws
    rcases hws with ((rfl | rfl) | rfl) | rfl <;> decide

theorem takeWhile_digit_append {x r : List Char} (hr : Stops r) :
    (x ++ r).takeWhile isDigit = x.takeWhile isDigit ∧
      (x ++ r).dropWhile isDigit = x.dropWhile isDigit ++ r := by
  induction x with
  | nil =>
      cases r with
      | nil => exact ⟨rfl, rfl⟩
      | cons c r =>
          have hc := hr.head.1
          simp [hc]
  | cons c x ih =>
      by_cases hc : isDigit c = true
      · simp [hc, ih.1, ih.2]
      · simp [hc]

theorem sign_append {x r : List Char} (hr : Stops r) :
    sign (x ++ r) = ((sign x).1, (sign x).2 ++ r) := by
  have hplain : ∀ {c : Char} (y : List Char), c ≠ '-' → c ≠ '+' →
      sign (c :: y) = ([], c :: y) := by
    intro c y hminus hplus
    unfold sign
    split
    · rename_i heq
      cases heq
      exact absurd rfl hminus
    · rename_i heq
      cases heq
      exact absurd rfl hplus
    · rfl
  cases x with
  | nil =>
      cases r with
      | nil => rfl
      | cons c r =>
          rw [List.nil_append, hplain]
          · rfl
          · rintro rfl
            rcases hr _ _ rfl with h | h | h | h <;> revert h <;> decide
          · rintro rfl
            rcases hr _ _ rfl with h | h | h | h <;> revert h <;> decide
  | cons c x =>
      by_cases hminus : c = '-'
      · subst hminus
        rfl
      · by_cases hplus : c = '+'
        · subst hplus
          rfl
        · rw [List.cons_append, hplain _ hminus hplus, hplain _ hminus hplus]
          rfl

theorem exponent_append (lit x : List Char) {r : List Char} (hr : Stops r) :
    exponent lit (x ++ r) = ((exponent lit x).1, (exponent lit x).2 ++ r) := by
  cases x with
  | nil =>
      cases r with
      | nil => rfl
      | cons c r =>
          obtain ⟨-, -, he, hE⟩ := hr.head
          simp [exponent, he, hE]
  | cons e x =>
      obtain ⟨htake, hdrop⟩ := takeWhile_digit_append (x := (sign x).2) hr
      rw [List.cons_append]
      simp only [exponent]
      rw [sign_append hr]
      simp only [htake, hdrop]
      split
      · rfl
      · rfl

theorem fraction_append {lit x r : List Char} (hr : Stops r) :
    fraction lit (x ++ r) = ((fraction lit x).1, (fraction lit x).2 ++ r) := by
  cases x with
  | nil =>
      cases r with
      | nil => simp
      | cons c r =>
          have hexp := exponent_append lit [] hr
          have hdot := hr.head.2.1
          unfold fraction
          simp only [List.nil_append] at hexp ⊢
          split
          · rename_i heq
            cases heq
            exact absurd rfl hdot
          · exact hexp
  | cons c x =>
      obtain ⟨htake, hdrop⟩ := takeWhile_digit_append (x := x) hr
      by_cases hc : c = '.'
      · subst hc
        have hexp := exponent_append lit ('.' :: x) hr
        simp only [fraction, List.cons_append, htake, hdrop] at hexp ⊢
        split
        · exact hexp
        · exact exponent_append _ _ hr
      · have hexp := exponent_append lit (c :: x) hr
        have hfrac : ∀ y, fraction lit (c :: y) = exponent lit (c :: y) := by
          intro y
          unfold fraction
          split
          · rename_i heq
            cases heq
            exact absurd rfl hc
          · rfl
        rw [List.cons_append, hfrac, hfrac]
        exact hexp

theorem unsigned_append {sg t r lit rest : List Char} (hr : Stops r)
    (h : unsigned sg t = some (lit, rest)) : unsigned sg (t ++ r) = some (lit, rest ++ r) := by
  cases t with
  | nil => cases h
  | cons c t =>
      rw [List.cons_append]
      unfold unsigned at h ⊢
      dsimp only at h ⊢
      split at h
      · rename_i hc
        rw [if_pos hc, fraction_append hr, Option.some.inj h]
      · rename_i hc
        rw [if_neg hc]
        split at h
        · rename_i hd
          obtain ⟨htake, hdrop⟩ := takeWhile_digit_append (x := t) hr
          rw [if_pos hd, htake, hdrop, fraction_append hr, Option.some.inj h]
        · cases h

theorem number_append {t r lit rest : List Char} (hr : Stops r)
    (h : number t = some (lit, rest)) : number (t ++ r) = some (lit, rest ++ r) := by
  have hplain : ∀ {c : Char} (y : List Char), c ≠ '-' → number (c :: y) = unsigned [] (c :: y) := by
    intro c y hc
    unfold number
    split
    · rename_i heq
      cases heq
      exact absurd rfl hc
    · rfl
  cases t with
  | nil => cases h
  | cons c t =>
      by_cases hc : c = '-'
      · subst hc
        exact unsigned_append hr h
      · rw [hplain _ hc] at h
        rw [List.cons_append, hplain _ hc]
        exact unsigned_append hr h

/-- The literal of a number, finite or not. -/
def IsLiteral (lit : List Char) : Prop :=
  lit ∈ ["NaN".toList, "Infinity".toList, "-Infinity".toList] ∨ number lit = some (lit, [])

instance (lit : List Char) : Decidable (IsLiteral lit) := inferInstanceAs (Decidable (_ ∨ _))

theorem number_head {t lit r : List Char} (h : number t = some (lit, r)) :
    ∃ c t', t = c :: t' ∧ (isDigit c = true ∨ (c = '-' ∧ ∃ d t'', t' = d :: t'' ∧
      isDigit d = true)) := by
  have hdigit : ∀ {sg t lit r : List Char}, unsigned sg t = some (lit, r) →
      ∃ c t', t = c :: t' ∧ isDigit c = true := by
    intro sg t lit r h
    cases t with
    | nil => cases h
    | cons c t =>
        refine ⟨c, t, rfl, ?_⟩
        unfold unsigned at h
        dsimp only at h
        split at h
        · rename_i hc
          rw [hc]
          rfl
        · split at h
          · assumption
          · cases h
  unfold number at h
  split at h
  · obtain ⟨d, t', rfl, hd⟩ := hdigit h
    exact ⟨'-', _, rfl, .inr ⟨rfl, d, t', rfl, hd⟩⟩
  · obtain ⟨c, t', rfl, hc⟩ := hdigit h
    exact ⟨c, t', rfl, .inl hc⟩

theorem words_eq : words = [(['n', 'u', 'l', 'l'], .null), (['t', 'r', 'u', 'e'], .bool true),
    (['f', 'a', 'l', 's', 'e'], .bool false), (['N', 'a', 'N'], .num ['N', 'a', 'N']),
    (['I', 'n', 'f', 'i', 'n', 'i', 't', 'y'], .num ['I', 'n', 'f', 'i', 'n', 'i', 't', 'y']),
    (['-', 'I', 'n', 'f', 'i', 'n', 'i', 't', 'y'],
      .num ['-', 'I', 'n', 'f', 'i', 'n', 'i', 't', 'y'])] := rfl

theorem scalar_word {w : List Char × Json} (hw : w ∈ words) (r : List Char) :
    scalar (w.1 ++ r) = some (w.2, r) := by
  have hfind : ∀ w ∈ words, words.find? (fun v => decide (v.1 <+: w.1 ++ r)) = some w := by
    intro w hw
    rw [words_eq] at hw ⊢
    simp only [List.mem_cons, List.not_mem_nil, or_false] at hw
    -- the words begin with different characters
    rcases hw with rfl | rfl | rfl | rfl | rfl | rfl <;>
      simp only [List.find?_cons, List.cons_append, List.nil_append, List.cons_prefix_cons,
        List.nil_prefix, Char.reduceEq, and_true, false_and, decide_true, decide_false]
  unfold scalar
  rw [hfind w hw]
  simp

theorem words_head {w : List Char × Json} (hw : w ∈ words) :
    ∃ c t, w.1 = c :: t ∧ isDigit c = false ∧
      (c = '-' → ∃ d t', t = d :: t' ∧ isDigit d = false) := by
  simp only [words, List.mem_cons, List.not_mem_nil, or_false] at hw
  rcases hw with rfl | rfl | rfl | rfl | rfl | rfl
  · exact ⟨'n', _, rfl, by decide, fun h => absurd h (by decide)⟩
  · exact ⟨'t', _, rfl, by decide, fun h => absurd h (by decide)⟩
  · exact ⟨'f', _, rfl, by decide, fun h => absurd h (by decide)⟩
  · exact ⟨'N', _, rfl, by decide, fun h => absurd h (by decide)⟩
  · exact ⟨'I', _, rfl, by decide, fun h => absurd h (by decide)⟩
  · exact ⟨'-', _, rfl, by decide, fun _ => ⟨'I', _, rfl, by decide⟩⟩

theorem scalar_number {lit r : List Char} (h : number lit = some (lit, [])) (hr : Stops r) :
    scalar (lit ++ r) = some (.num lit, r) := by
  have hnumber := number_append hr h
  rw [List.nil_append] at hnumber
  obtain ⟨c, t, ht, hc⟩ := number_head h
  have hnone : words.find? (fun v => decide (v.1 <+: lit ++ r)) = none := by
    rw [List.find?_eq_none]
    intro w hw hpre
    obtain ⟨c', t', hw', hdigit, hminus⟩ := words_head hw
    rw [decide_eq_true_eq, ht, hw', List.cons_append, List.cons_prefix_cons] at hpre
    obtain ⟨rfl, hpre⟩ := hpre
    rcases hc with hc | ⟨rfl, d, t'', rfl, hd⟩
    · rw [hdigit] at hc
      cases hc
    · obtain ⟨d', u, rfl, hd'⟩ := hminus rfl
      rw [List.cons_append, List.cons_prefix_cons] at hpre
      rw [hpre.1, hd] at hd'
      cases hd'
  unfold scalar
  rw [hnone, hnumber]
  rfl

theorem scalar_literal {lit r : List Char} (h : IsLiteral lit) (hr : Stops r) :
    scalar (lit ++ r) = some (.num lit, r) := by
  rcases h with h | h
  · simp only [List.mem_cons, List.not_mem_nil, or_false] at h
    rcases h with rfl | rfl | rfl
    · exact scalar_word (w := ("NaN".toList, .num "NaN".toList)) (by simp [words]) r
    · exact scalar_word (w := ("Infinity".toList, .num "Infinity".toList)) (by simp [words]) r
    · exact scalar_word (w := ("-Infinity".toList, .num "-Infinity".toList)) (by simp [words]) r
  · exact scalar_number h hr

/-! ## What a text stands for -/

/-- The text stands for the value, wherever a value ends. -/
def Reads (w : List Char) (v : Json) : Prop :=
  ∀ n r, w.length ≤ n → Stops r → value n (w ++ r) = some (v, r)

/-- A value that neither a quote nor a bracket opens. -/
theorem value_scalar {n : Nat} {c : Char} {t : List Char} (hq : c ≠ '"') (ho : c ≠ '{')
    (ha : c ≠ '[') : value (n + 1) (c :: t) = scalar (c :: t) := by
  rw [value]
  · rintro _ ⟨⟩
    exact hq rfl
  · rintro _ ⟨⟩
    exact ho rfl
  · rintro _ ⟨⟩
    exact ha rfl

theorem Reads.scalar {c : Char} {w : List Char} {v : Json} (hq : c ≠ '"') (ho : c ≠ '{')
    (ha : c ≠ '[') (h : ∀ r, Stops r → Json.scalar (c :: w ++ r) = some (v, r)) :
    Reads (c :: w) v := by
  intro n r hn hr
  obtain ⟨m, rfl⟩ : ∃ m, n = m + 1 := ⟨n - 1, by simp only [List.length_cons] at hn; omega⟩
  rw [List.cons_append, value_scalar hq ho ha]
  exact h r hr

theorem reads_null : Reads "null".toList .null :=
  .scalar (by decide) (by decide) (by decide) fun r _ =>
    scalar_word (w := ("null".toList, .null)) (by simp [words]) r

theorem reads_bool (b : Bool) : Reads (if b then "true".toList else "false".toList) (.bool b) := by
  cases b
  · exact .scalar (by decide) (by decide) (by decide) fun r _ =>
      scalar_word (w := ("false".toList, .bool false)) (by simp [words]) r
  · exact .scalar (by decide) (by decide) (by decide) fun r _ =>
      scalar_word (w := ("true".toList, .bool true)) (by simp [words]) r

theorem IsLiteral.head {lit : List Char} (h : IsLiteral lit) :
    ∃ c t, lit = c :: t ∧ c ≠ '"' ∧ c ≠ '{' ∧ c ≠ '[' := by
  rcases h with h | h
  · simp only [List.mem_cons, List.not_mem_nil, or_false] at h
    rcases h with rfl | rfl | rfl
    · exact ⟨'N', _, rfl, by decide, by decide, by decide⟩
    · exact ⟨'I', _, rfl, by decide, by decide, by decide⟩
    · exact ⟨'-', _, rfl, by decide, by decide, by decide⟩
  · obtain ⟨c, t, rfl, hc | ⟨rfl, -⟩⟩ := number_head h
    · refine ⟨c, t, rfl, ?_, ?_, ?_⟩ <;>
        · rintro rfl
          revert hc
          decide
    · exact ⟨'-', t, rfl, by decide, by decide, by decide⟩

theorem reads_num {lit : List Char} (h : IsLiteral lit) : Reads lit (.num lit) := by
  obtain ⟨c, t, rfl, hq, ho, ha⟩ := h.head
  exact .scalar hq ho ha fun r hr => scalar_literal h hr

theorem reads_quote (s : List Char) : Reads (quote s) (.str s) := by
  intro n r hn _
  obtain ⟨m, rfl⟩ : ∃ m, n = m + 1 := ⟨n - 1, by simp only [quote, List.length_cons] at hn; omega⟩
  rw [quote, List.cons_append, List.append_assoc, List.singleton_append, value, string_escape]
  rfl

theorem scalar_head {c : Char} {t : List Char} {p : Json × List Char}
    (h : Json.scalar (c :: t) = some p) : isWs c = false ∧ c ≠ ']' := by
  have hnot : ∀ c : Char, (isWs c = true ∨ c = ']') → isDigit c = false ∧ c ≠ '-' ∧
      ∀ w ∈ words, w.1.head? ≠ some c := by
    intro c hc
    rcases hc with hc | rfl
    · simp only [isWs, Bool.or_eq_true, decide_eq_true_eq] at hc
      rcases hc with ((rfl | rfl) | rfl) | rfl <;> simp [words] <;> decide
    · simp [words]
      decide
  have hgood : ¬ (isWs c = true ∨ c = ']') := by
    intro hc
    obtain ⟨hdigit, hminus, hwords⟩ := hnot c hc
    unfold Json.scalar at h
    split at h
    · rename_i w hw
      have hpre := List.find?_some hw
      have hmem := List.mem_of_find?_eq_some hw
      rw [decide_eq_true_eq] at hpre
      obtain ⟨d, t', hd, -⟩ := words_head hmem
      rw [hd, List.cons_prefix_cons] at hpre
      refine hwords w hmem ?_
      rw [hd, hpre.1]
      rfl
    · cases hnum : number (c :: t) with
      | none => rw [hnum] at h; cases h
      | some q =>
          obtain ⟨c', t', heq, hc' | ⟨hc', -⟩⟩ := number_head hnum
          · cases heq
            rw [hdigit] at hc'
            cases hc'
          · cases heq
            exact hminus hc'
  rw [not_or] at hgood
  exact ⟨by simpa using hgood.1, hgood.2⟩

theorem value_head {n : Nat} {t : List Char} {p : Json × List Char} (h : value n t = some p) :
    ∃ c t', t = c :: t' ∧ isWs c = false ∧ c ≠ ']' := by
  cases n with
  | zero => simp [value] at h
  | succ n =>
      cases t with
      | nil =>
          exfalso
          revert h
          simp [value, Json.scalar, words, number, unsigned]
      | cons c t =>
          refine ⟨c, t, rfl, ?_⟩
          by_cases hq : c = '"'
          · subst hq
            decide
          by_cases ho : c = '{'
          · subst ho
            decide
          by_cases ha : c = '['
          · subst ha
            decide
          rw [value_scalar hq ho ha] at h
          exact scalar_head h

theorem Reads.head {w : List Char} {v : Json} (h : Reads w v) :
    ∃ c t, w = c :: t ∧ isWs c = false ∧ c ≠ ']' := by
  have hval := h w.length [] le_rfl stops_nil
  rw [List.append_nil] at hval
  exact value_head hval

theorem skipWs_cons {c : Char} {t : List Char} (h : isWs c = false) : skipWs (c :: t) = c :: t := by
  simp [skipWs, h]

theorem skipWs_append {ws t : List Char} (hws : ∀ c ∈ ws, isWs c = true) :
    skipWs (ws ++ t) = skipWs t := by
  induction ws with
  | nil => rfl
  | cons c ws ih =>
      rw [List.cons_append, skipWs, List.dropWhile_cons, if_pos (hws c List.mem_cons_self)]
      exact ih fun d hd => hws d (List.mem_cons_of_mem _ hd)

theorem Reads.skipWs {w : List Char} {v : Json} (h : Reads w v) {ws : List Char}
    (hws : ∀ c ∈ ws, isWs c = true) (r : List Char) :
    Json.skipWs (ws ++ (w ++ r)) = w ++ r := by
  obtain ⟨c, t, rfl, hc, -⟩ := h.head
  rw [skipWs_append hws, List.cons_append, skipWs_cons hc]

section Join

variable {ws ws' : List Char}

theorem items_join (hws : ∀ c ∈ ws, isWs c = true) {xs : List (List Char × Json)}
    (hreads : ∀ x ∈ xs, Reads x.1 x.2) (hne : xs ≠ []) :
    ∀ n r, (joinItems (',' :: ws) (xs.map Prod.fst)).length < n →
      items n (joinItems (',' :: ws) (xs.map Prod.fst) ++ ']' :: r) = some (xs.map Prod.snd, r) := by
  induction xs with
  | nil => exact absurd rfl hne
  | cons x xs ih =>
      intro n r hn
      obtain ⟨m, rfl⟩ : ∃ m, n = m + 1 := ⟨n - 1, by omega⟩
      have hx := hreads x List.mem_cons_self
      cases xs with
      | nil =>
          simp only [List.map_cons, List.map_nil, joinItems] at hn ⊢
          rw [items, hx m (']' :: r) (by omega) (stops_cons (.inr (.inr (.inl rfl))))]
          simp [skipWs_cons (show isWs ']' = false by decide)]
      | cons y ys =>
          have hy := hreads y (List.mem_cons_of_mem _ List.mem_cons_self)
          simp only [List.map_cons, joinItems, List.length_append, List.length_cons] at hn ih ⊢
          rw [List.append_assoc, List.append_assoc, items, List.cons_append,
            hx m _ (by omega) (stops_cons (.inl rfl))]
          simp only [Option.bind_eq_bind, Option.bind_some,
            skipWs_cons (show isWs ',' = false by decide)]
          have hskip : skipWs (ws ++ (joinItems (',' :: ws) (y.1 :: ys.map Prod.fst) ++ ']' :: r)) =
              joinItems (',' :: ws) (y.1 :: ys.map Prod.fst) ++ ']' :: r := by
            cases ys with
            | nil => exact hy.skipWs hws _
            | cons z zs =>
                simp only [List.map_cons, joinItems, List.append_assoc]
                exact hy.skipWs hws _
          rw [hskip, ih (fun x hx => hreads x (List.mem_cons_of_mem _ hx)) (List.cons_ne_nil _ _) m
            r (by omega)]
          rfl

/-- An array of texts that stand for values. -/
theorem reads_arr (hws : ∀ c ∈ ws, isWs c = true) {xs : List (List Char × Json)}
    (hreads : ∀ x ∈ xs, Reads x.1 x.2) :
    Reads ('[' :: (joinItems (',' :: ws) (xs.map Prod.fst) ++ [']'])) (.arr (xs.map Prod.snd)) := by
  intro n r hn hr
  simp only [List.length_cons, List.length_append, List.length_nil] at hn
  obtain ⟨m, rfl⟩ : ∃ m, n = m + 1 := ⟨n - 1, by omega⟩
  rw [List.cons_append, List.append_assoc, List.singleton_append, value]
  cases xs with
  | nil => simp [joinItems, skipWs_cons (show isWs ']' = false by decide)]
  | cons x xs =>
      have hitems := items_join hws hreads (List.cons_ne_nil _ _) m r (by omega)
      obtain ⟨c, t, hx, hc, hclose⟩ := (hreads x List.mem_cons_self).head
      obtain ⟨t', ht'⟩ : ∃ t', joinItems (',' :: ws) ((x :: xs).map Prod.fst) ++ ']' :: r =
          c :: t' := by
        cases xs with
        | nil => exact ⟨_, by simp only [List.map_cons, List.map_nil, joinItems, hx]; rfl⟩
        | cons y ys => exact ⟨_, by simp only [List.map_cons, joinItems, hx]; rfl⟩
      rw [ht'] at hitems ⊢
      rw [skipWs_cons hc]
      split
      · rename_i heq
        cases heq
        exact absurd rfl hclose
      · rw [hitems]
        rfl

theorem joinMembers_head (sep colon : List Char) (ms : List (List Char × List Char))
    (hne : ms ≠ []) (r : List Char) : ∃ t, joinMembers sep colon ms ++ r = '"' :: t := by
  cases ms with
  | nil => exact absurd rfl hne
  | cons m ms =>
      cases ms with
      | nil => exact ⟨_, rfl⟩
      | cons m' ms => exact ⟨_, rfl⟩

/-- A member of an object with the text of its value. -/
structure TextMember where
  key : List Char
  text : List Char
  value : Json

def TextMember.pair (m : TextMember) : List Char × List Char := (m.key, m.text)

def TextMember.member (m : TextMember) : Member := (m.key, m.value)

theorem members_join (hws : ∀ c ∈ ws, isWs c = true) (hws' : ∀ c ∈ ws', isWs c = true)
    {ms : List TextMember} (hreads : ∀ m ∈ ms, Reads m.text m.value) (hne : ms ≠ []) :
    ∀ n r, (joinMembers (',' :: ws) (':' :: ws') (ms.map TextMember.pair)).length < n →
      members n (joinMembers (',' :: ws) (':' :: ws') (ms.map TextMember.pair) ++ '}' :: r) =
        some (ms.map TextMember.member, r) := by
  induction ms with
  | nil => exact absurd rfl hne
  | cons x ms ih =>
      intro n r hn
      obtain ⟨m, rfl⟩ : ∃ m, n = m + 1 := ⟨n - 1, by omega⟩
      have hx := hreads x List.mem_cons_self
      cases ms with
      | nil =>
          simp only [List.map_cons, List.map_nil, joinMembers, quote, TextMember.pair,
            List.cons_append, List.append_assoc, List.nil_append, List.length_cons,
            List.length_append] at hn ⊢
          rw [members, string_escape]
          simp only [Option.bind_eq_bind, Option.bind_some,
            skipWs_cons (show isWs ':' = false by decide)]
          rw [hx.skipWs hws', hx m ('}' :: r) (by omega) (stops_cons (.inr (.inl rfl)))]
          simp [skipWs_cons (show isWs '}' = false by decide), TextMember.member]
      | cons y ys =>
          have hrest := ih (fun x hx => hreads x (List.mem_cons_of_mem _ hx))
            (List.cons_ne_nil _ _) m r
          obtain ⟨t, ht⟩ := joinMembers_head (',' :: ws) (':' :: ws')
            ((y :: ys).map TextMember.pair) (List.cons_ne_nil _ _) ('}' :: r)
          simp only [List.map_cons] at hrest ht
          simp only [List.map_cons, joinMembers, quote, TextMember.pair,
            List.cons_append, List.append_assoc, List.nil_append, List.length_cons,
            List.length_append] at hn ⊢
          rw [members, string_escape]
          simp only [Option.bind_eq_bind, Option.bind_some,
            skipWs_cons (show isWs ':' = false by decide)]
          rw [hx.skipWs hws', hx m _ (by omega) (stops_cons (.inl rfl))]
          simp only [Option.bind_some, skipWs_cons (show isWs ',' = false by decide)]
          have hskip : skipWs (ws ++ '"' :: t) = '"' :: t := by
            rw [skipWs_append hws, skipWs_cons (by decide)]
          simp only [TextMember.pair] at ht hrest
          rw [ht] at hrest ⊢
          rw [hskip, hrest (by omega)]
          rfl

/-- An object of texts that stand for values. -/
theorem reads_obj (hws : ∀ c ∈ ws, isWs c = true) (hws' : ∀ c ∈ ws', isWs c = true)
    {ms : List TextMember} (hreads : ∀ m ∈ ms, Reads m.text m.value) :
    Reads ('{' :: (joinMembers (',' :: ws) (':' :: ws') (ms.map TextMember.pair) ++ ['}']))
      (.obj (ms.map TextMember.member)) := by
  intro n r hn hr
  simp only [List.length_cons, List.length_append, List.length_nil] at hn
  obtain ⟨m, rfl⟩ : ∃ m, n = m + 1 := ⟨n - 1, by omega⟩
  rw [List.cons_append, List.append_assoc, List.singleton_append, value]
  cases ms with
  | nil => simp [joinMembers, skipWs_cons (show isWs '}' = false by decide)]
  | cons x ms =>
      have hmembers := members_join hws hws' hreads (List.cons_ne_nil _ _) m r (by omega)
      obtain ⟨t, ht⟩ := joinMembers_head (',' :: ws) (':' :: ws')
        ((x :: ms).map TextMember.pair) (List.cons_ne_nil _ _) ('}' :: r)
      rw [ht] at hmembers ⊢
      rw [skipWs_cons (by decide)]
      split
      · rename_i heq
        cases heq
      · rw [hmembers]
        rfl

end Join

theorem Reads.parse {w : List Char} {v : Json} (h : Reads w v) : parse w = some v := by
  have hskip := h.skipWs (show ∀ c ∈ [], isWs c = true by simp) []
  rw [List.nil_append, List.append_nil] at hskip
  have hval := h (w.length + 1) [] (Nat.le_succ _) stops_nil
  rw [List.append_nil] at hval
  unfold Json.parse
  rw [hskip, hval]
  rfl

/-! ## Values that were read and written again -/

/-- Set a key; a key that is there keeps its place. -/
def dictSet {V : Type} (d : List (List Char × V)) (k : List Char) (v : V) : List (List Char × V) :=
  if d.any fun m => decide (m.1 = k) then d.map fun m => if m.1 = k then (k, v) else m
  else d ++ [(k, v)]

/-- The dictionary of a list of members: the last value of a key, where the key came first. -/
def dict {V : Type} (ms : List (List Char × V)) : List (List Char × V) :=
  ms.foldl (fun d m => dictSet d m.1 m.2) []

mutual

/-- The value with dictionaries for its objects. -/
def normal : Json → Json
  | .arr xs => .arr (normalItems xs)
  | .obj ms => .obj (dict (normalMembers ms))
  | v => v

def normalItems : List Json → List Json
  | [] => []
  | x :: xs => normal x :: normalItems xs

def normalMembers : List Member → List Member
  | [] => []
  | (k, x) :: ms => (k, normal x) :: normalMembers ms

end

def loads (t : List Char) : Option Json := (parse t).map normal

mutual

/-- The value with its numbers as they are written. -/
def renumber (write : List Char → List Char) : Json → Json
  | .num lit => .num (write lit)
  | .arr xs => .arr (renumberItems write xs)
  | .obj ms => .obj (renumberMembers write ms)
  | v => v

def renumberItems (write : List Char → List Char) : List Json → List Json
  | [] => []
  | x :: xs => renumber write x :: renumberItems write xs

def renumberMembers (write : List Char → List Char) : List Member → List Member
  | [] => []
  | (k, x) :: ms => (k, renumber write x) :: renumberMembers write ms

end

mutual

/-- No number is `NaN` or infinite. -/
def isFinite : Json → Bool
  | .num lit => !decide (lit ∈ ["NaN".toList, "Infinity".toList, "-Infinity".toList])
  | .arr xs => isFiniteItems xs
  | .obj ms => isFiniteMembers ms
  | _ => true

def isFiniteItems : List Json → Bool
  | [] => true
  | x :: xs => isFinite x && isFiniteItems xs

def isFiniteMembers : List Member → Bool
  | [] => true
  | m :: ms => isFinite m.2 && isFiniteMembers ms

end

theorem isFiniteMembers_eq (ms : List Member) :
    isFiniteMembers ms = ms.all fun m => isFinite m.2 := by
  induction ms with
  | nil => rfl
  | cons m ms ih => rw [isFiniteMembers, ih, List.all_cons]

variable {write : List Char → List Char}

mutual

theorem reads_dumps (hwrite : ∀ lit, IsLiteral (write lit)) :
    ∀ v : Json, Reads (dumps write v) (renumber write v)
  | .null => reads_null
  | .bool true => reads_bool true
  | .bool false => reads_bool false
  | .num lit => reads_num (hwrite lit)
  | .str s => reads_quote s
  | .arr xs => by
      obtain ⟨ps, hfst, hsnd, hreads⟩ := reads_dumpsItems hwrite xs
      rw [dumps, renumber, ← hfst, ← hsnd]
      exact reads_arr (show ∀ c ∈ [' '], isWs c = true by simp [isWs]) hreads
  | .obj ms => by
      obtain ⟨ps, hpair, hmember, hreads⟩ := reads_dumpsMembers hwrite ms
      rw [dumps, renumber, ← hpair, ← hmember]
      have hspace : ∀ c ∈ [' '], isWs c = true := by simp [isWs]
      exact reads_obj hspace hspace hreads

theorem reads_dumpsItems (hwrite : ∀ lit, IsLiteral (write lit)) : ∀ xs : List Json,
    ∃ ps : List (List Char × Json), ps.map Prod.fst = dumpsItems write xs ∧
      ps.map Prod.snd = renumberItems write xs ∧ ∀ p ∈ ps, Reads p.1 p.2
  | [] => ⟨[], rfl, rfl, by simp⟩
  | x :: xs => by
      obtain ⟨ps, hfst, hsnd, hreads⟩ := reads_dumpsItems hwrite xs
      refine ⟨(dumps write x, renumber write x) :: ps, ?_, ?_, ?_⟩
      · rw [List.map_cons, hfst, dumpsItems]
      · rw [List.map_cons, hsnd, renumberItems]
      · intro p hp
        rcases List.mem_cons.1 hp with rfl | hp
        · exact reads_dumps hwrite x
        · exact hreads p hp

theorem reads_dumpsMembers (hwrite : ∀ lit, IsLiteral (write lit)) : ∀ ms : List Member,
    ∃ ps : List TextMember, ps.map TextMember.pair = dumpsMembers write ms ∧
      ps.map TextMember.member = renumberMembers write ms ∧ ∀ p ∈ ps, Reads p.text p.value
  | [] => ⟨[], rfl, rfl, by simp⟩
  | (k, x) :: ms => by
      obtain ⟨ps, hpair, hmember, hreads⟩ := reads_dumpsMembers hwrite ms
      refine ⟨⟨k, dumps write x, renumber write x⟩ :: ps, ?_, ?_, ?_⟩
      · rw [List.map_cons, hpair, dumpsMembers, TextMember.pair]
      · rw [List.map_cons, hmember, renumberMembers, TextMember.member]
      · intro p hp
        rcases List.mem_cons.1 hp with rfl | hp
        · exact reads_dumps hwrite x
        · exact hreads p hp

end

/-- What is written is read back, its numbers as they were written. -/
theorem parse_dumps (hwrite : ∀ lit, IsLiteral (write lit)) (v : Json) :
    parse (dumps write v) = some (renumber write v) :=
  (reads_dumps hwrite v).parse

/-! ## Dictionaries -/

theorem normalMembers_eq (ms : List Member) :
    normalMembers ms = ms.map fun m => (m.1, normal m.2) := by
  induction ms with
  | nil => rfl
  | cons m ms ih => rw [normalMembers, ih, List.map_cons]

theorem renumberMembers_eq (ms : List Member) :
    renumberMembers write ms = ms.map fun m => (m.1, renumber write m.2) := by
  induction ms with
  | nil => rfl
  | cons m ms ih => rw [renumberMembers, ih, List.map_cons]

theorem dictSet_map {V W : Type} (f : V → W) (d : List (List Char × V)) (k : List Char) (v : V) :
    dictSet (d.map fun m => (m.1, f m.2)) k (f v) =
      (dictSet d k v).map fun m => (m.1, f m.2) := by
  unfold dictSet
  have hany : ((d.map fun m => (m.1, f m.2)).any fun m => decide (m.1 = k)) =
      d.any fun m => decide (m.1 = k) := by
    rw [List.any_map]
    rfl
  rw [hany]
  split
  · rw [List.map_map, List.map_map]
    refine List.map_congr_left fun m _ => ?_
    simp only [Function.comp_apply]
    split <;> rfl
  · rw [List.map_append]
    rfl

/-- A dictionary does not depend on what its values are. -/
theorem dict_map {V W : Type} (f : V → W) (ms : List (List Char × V)) :
    dict (ms.map fun m => (m.1, f m.2)) = (dict ms).map fun m => (m.1, f m.2) := by
  have hfold : ∀ d : List (List Char × V), (ms.map fun m => (m.1, f m.2)).foldl
      (fun d m => dictSet d m.1 m.2) (d.map fun m => (m.1, f m.2)) =
        (ms.foldl (fun d m => dictSet d m.1 m.2) d).map fun m => (m.1, f m.2) := by
    induction ms with
    | nil => exact fun _ => rfl
    | cons m ms ih =>
        intro d
        rw [List.map_cons, List.foldl_cons, List.foldl_cons, dictSet_map, ih]
  exact hfold []

theorem dictSet_keys {V : Type} {d : List (List Char × V)} (h : (d.map Prod.fst).Nodup)
    (k : List Char) (v : V) : ((dictSet d k v).map Prod.fst).Nodup := by
  unfold dictSet
  split
  · have hkeys : (d.map fun m => if m.1 = k then (k, v) else m).map Prod.fst = d.map Prod.fst := by
      rw [List.map_map]
      refine List.map_congr_left fun m _ => ?_
      simp only [Function.comp_apply]
      split
      · rename_i heq
        exact heq.symm
      · rfl
    rwa [hkeys]
  · rename_i hnone
    rw [List.map_append, List.nodup_append]
    refine ⟨h, by simp, fun a ha b hb => ?_⟩
    obtain ⟨m, hm, rfl⟩ := List.mem_map.1 ha
    simp only [List.map_cons, List.map_nil, List.mem_singleton] at hb
    rintro rfl
    exact hnone (List.any_eq_true.2 ⟨m, hm, decide_eq_true hb⟩)

/-- A new key is added at the end. -/
theorem dictSet_new {V : Type} {d : List (List Char × V)} {k : List Char}
    (h : k ∉ d.map Prod.fst) (v : V) : dictSet d k v = d ++ [(k, v)] := by
  unfold dictSet
  rw [if_neg]
  intro hany
  obtain ⟨m, hm, heq⟩ := List.any_eq_true.1 hany
  exact h (of_decide_eq_true heq ▸ List.mem_map_of_mem hm)

theorem dict_keys {V : Type} (ms : List (List Char × V)) : ((dict ms).map Prod.fst).Nodup := by
  have hfold : ∀ d : List (List Char × V), (d.map Prod.fst).Nodup →
      ((ms.foldl (fun d m => dictSet d m.1 m.2) d).map Prod.fst).Nodup := by
    induction ms with
    | nil => exact fun _ h => h
    | cons m ms ih => exact fun d h => ih _ (dictSet_keys h m.1 m.2)
  exact hfold [] List.nodup_nil

/-- Members without a repeated key are a dictionary. -/
theorem dict_of_nodup {V : Type} {ms : List (List Char × V)} (h : (ms.map Prod.fst).Nodup) :
    dict ms = ms := by
  have hfold : ∀ d : List (List Char × V), ((d ++ ms).map Prod.fst).Nodup →
      ms.foldl (fun d m => dictSet d m.1 m.2) d = d ++ ms := by
    clear h
    induction ms with
    | nil => exact fun d _ => (List.append_nil d).symm
    | cons m ms ih =>
        intro d h
        have hset : dictSet d m.1 m.2 = d ++ [m] := by
          apply dictSet_new
          intro hmem
          rw [List.map_append, List.nodup_append] at h
          exact h.2.2 _ hmem m.1 (by simp) rfl
        rw [List.foldl_cons, hset, ih _ (by rwa [List.append_assoc, List.singleton_append]),
          List.append_assoc, List.singleton_append]
  exact hfold [] h

theorem dict_dict {V : Type} (ms : List (List Char × V)) : dict (dict ms) = dict ms :=
  dict_of_nodup (dict_keys ms)

/-- Members that were written one after another. -/
theorem parse_joinMembers (hwrite : ∀ lit, IsLiteral (write lit)) (ms : List Member) :
    parse ('{' :: (joinMembers [','] [':'] (ms.map fun m => (m.1, dumps write m.2)) ++ ['}'])) =
      some (.obj (ms.map fun m => (m.1, renumber write m.2))) := by
  have hreads : ∀ m ∈ ms.map fun m => (⟨m.1, dumps write m.2, renumber write m.2⟩ : TextMember),
      Reads m.text m.value := by
    intro m hm
    obtain ⟨m, -, rfl⟩ := List.mem_map.1 hm
    exact reads_dumps hwrite m.2
  have hnone : ∀ c ∈ ([] : List Char), isWs c = true := by simp
  have hparse := (reads_obj hnone hnone hreads).parse
  rw [List.map_map, List.map_map] at hparse
  exact hparse

/-- The object of members that were written one after another. -/
theorem loads_joinMembers (hwrite : ∀ lit, IsLiteral (write lit)) (ms : List Member) :
    loads ('{' :: (joinMembers [','] [':'] (ms.map fun m => (m.1, dumps write m.2)) ++ ['}'])) =
      some (.obj (dict (ms.map fun m => (m.1, normal (renumber write m.2))))) := by
  unfold loads
  rw [parse_joinMembers hwrite, Option.map_some, normal, normalMembers_eq, List.map_map]
  rfl

theorem joinMembers_cons (sep colon : List Char) (m : List Char × List Char)
    {ms : List (List Char × List Char)} (hne : ms ≠ []) :
    joinMembers sep colon (m :: ms) =
      quote m.1 ++ (colon ++ (m.2 ++ (sep ++ joinMembers sep colon ms))) := by
  cases ms with
  | nil => exact absurd rfl hne
  | cons m' ms => rfl

/-- One more member. -/
theorem joinMembers_concat (sep colon : List Char) {ms : List (List Char × List Char)}
    (hne : ms ≠ []) (m : List Char × List Char) :
    joinMembers sep colon (ms ++ [m]) =
      joinMembers sep colon ms ++ (sep ++ (quote m.1 ++ (colon ++ m.2))) := by
  induction ms with
  | nil => exact absurd rfl hne
  | cons x xs ih =>
      rw [List.cons_append, joinMembers_cons sep colon x (by simp)]
      by_cases hxs : xs = []
      · subst hxs
        simp [joinMembers]
      · rw [ih hxs, joinMembers_cons sep colon x hxs]
        simp only [List.append_assoc]

/-- The object of a dictionary that was written whole. -/
theorem loads_dumps_dict (hwrite : ∀ lit, IsLiteral (write lit)) (ms : List Member) :
    loads (dumps write (.obj (dict ms))) =
      some (.obj (dict (ms.map fun m => (m.1, normal (renumber write m.2))))) := by
  unfold loads
  rw [parse_dumps hwrite, Option.map_some, renumber, normal, normalMembers_eq, renumberMembers_eq,
    List.map_map]
  have hcomp : ((fun m : Member => (m.1, normal m.2)) ∘ fun m : Member =>
      (m.1, renumber write m.2)) = fun m => (m.1, normal (renumber write m.2)) := rfl
  rw [hcomp, dict_map (fun v => normal (renumber write v)) (dict ms), dict_dict,
    dict_map (fun v => normal (renumber write v)) ms]

end Json
