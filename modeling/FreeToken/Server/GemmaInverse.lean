import FreeToken.Server.GemmaArgs

/-!
# The parser of arguments and its notation

The splitter goes over a rendered value as over one piece, whatever follows, so it finds the items of a
list and the members of an object again.  Only an empty list comes back as something else.
-/

set_option autoImplicit false

namespace FreeToken

namespace GemmaArgs

open Text Search

/-! ## Text the splitter goes over -/

theorem marker_startsOnly : StartsOnly '<' marker := ⟨"|\"|>".toList, rfl, by decide⟩

theorem prepend_nil (parts : Text × List Text) : prepend [] parts = parts := rfl

theorem prepend_prepend (v w : Text) (parts : Text × List Text) :
    prepend v (prepend w parts) = prepend (v ++ w) parts := by
  unfold prepend
  rw [List.append_assoc]

theorem splitLoop_marker (depth : Int) (inString : Bool) (t : Text) :
    splitLoop ',' depth inString 0 (marker ++ t) =
      prepend marker (splitLoop ',' depth (!inString) 0 t) := by
  have hpre : marker <+: '<' :: '|' :: '"' :: '|' :: '>' :: t := List.prefix_append marker t
  show splitLoop ',' depth inString 0 ('<' :: '|' :: '"' :: '|' :: '>' :: t) = _
  rw [splitLoop, if_pos hpre]
  rfl

theorem splitLoop_inString (depth : Int) {w rest : Text}
    (h : ∀ i < w.length, ¬ OccursAt marker (w ++ rest) i) :
    splitLoop ',' depth true 0 (w ++ rest) = prepend w (splitLoop ',' depth true 0 rest) := by
  induction w with
  | nil => rfl
  | cons c w ih =>
      rw [List.cons_append, splitLoop, if_neg, if_pos rfl, ih, prepend_prepend]
      · rfl
      · intro i hi
        exact h (i + 1) (Nat.succ_lt_succ hi)
      · exact h 0 (Nat.succ_pos _)

/-- Neither a bracket nor a comma. -/
def isBare (c : Char) : Bool := c ∉ [',', '[', ']', '{', '}']

theorem splitLoop_bare (depth : Int) {w rest : Text} (hw : ∀ c ∈ w, isBare c = true)
    (h : ∀ i < w.length, ¬ OccursAt marker (w ++ rest) i) :
    splitLoop ',' depth false 0 (w ++ rest) = prepend w (splitLoop ',' depth false 0 rest) := by
  induction w with
  | nil => rfl
  | cons c w ih =>
      have hc := of_decide_eq_true (hw c List.mem_cons_self)
      simp only [List.mem_cons, List.not_mem_nil, or_false, not_or] at hc
      obtain ⟨hcomma, hopen, hclose, hopen', hclose'⟩ := hc
      rw [List.cons_append, splitLoop, if_neg, if_neg (by decide), if_neg (by simp [hopen, hopen']),
        if_neg (by simp [hclose, hclose']), if_neg (by simp [hcomma]), ih, prepend_prepend]
      · rfl
      · intro d hd
        exact hw d (List.mem_cons_of_mem c hd)
      · intro i hi
        exact h (i + 1) (Nat.succ_lt_succ hi)
      · exact h 0 (Nat.succ_pos _)

/-- The splitter goes over the text in one piece, whatever follows. -/
def Passes (depth : Int) (w : Text) : Prop :=
  ∀ rest, splitLoop ',' depth false 0 (w ++ rest) = prepend w (splitLoop ',' depth false 0 rest)

theorem Passes.append {depth : Int} {v w : Text} (hv : Passes depth v) (hw : Passes depth w) :
    Passes depth (v ++ w) := by
  intro rest
  rw [List.append_assoc, hv, hw, prepend_prepend]

theorem passes_bare {w : Text} (hw : ∀ c ∈ w, isBare c = true) (hmark : '<' ∉ w) (depth : Int) :
    Passes depth w := by
  intro rest
  apply splitLoop_bare depth hw
  intro i hi hocc
  obtain ⟨z, hz⟩ := hocc
  rw [List.drop_append_of_le_length (Nat.le_of_lt hi), List.drop_eq_getElem_cons hi] at hz
  have hhead : '<' = w[i] := (List.cons.inj hz).1
  exact hmark (hhead ▸ List.getElem_mem hi)

theorem passes_string {s : Text} (h : find marker s = none) (depth : Int) :
    Passes depth (marker ++ (s ++ marker)) := by
  intro rest
  rw [List.append_assoc, List.append_assoc, splitLoop_marker]
  show prepend marker (splitLoop ',' depth true 0 (s ++ (marker ++ rest))) = _
  have hbegins : Begins '<' (marker ++ rest) := begins_cons '<' _
  rw [splitLoop_inString depth (marker_startsOnly.not_occursAt h hbegins), splitLoop_marker,
    prepend_prepend, prepend_prepend]
  rfl

theorem passes_comma {depth : Int} (h : depth ≠ 0) : Passes depth [','] := by
  intro rest
  rw [List.singleton_append, splitLoop, if_neg (by simp [marker]), if_neg (by decide),
    if_neg (by decide), if_neg (by decide), if_neg fun hc => h hc.2]

/-- An opening bracket and its closing one around text that passes one level deeper. -/
theorem passes_brackets {depth : Int} {body : Text} {o c : Char} (ho : o = '[' ∨ o = '{')
    (hc : c = ']' ∨ c = '}') (h : Passes (depth + 1) body) : Passes depth (o :: (body ++ [c])) := by
  intro rest
  have hopen : ¬ marker <+: o :: (body ++ [c] ++ rest) := by
    rcases ho with rfl | rfl <;> simp [marker]
  have hclose : ¬ marker <+: c :: rest := by
    rcases hc with rfl | rfl <;> simp [marker]
  have hnot : ¬ (c = '[' ∨ c = '{') := by
    rcases hc with rfl | rfl <;> decide
  rw [List.cons_append, splitLoop, if_neg hopen, if_neg (by decide), if_pos ho, List.append_assoc, h,
    List.singleton_append, splitLoop, if_neg hclose, if_neg (by decide), if_neg hnot, if_pos hc,
    show depth + 1 - 1 = depth by omega, prepend_prepend, prepend_prepend]
  rfl

theorem passes_join {depth : Int} (hdepth : depth ≠ 0) {ws : List Text}
    (h : ∀ w ∈ ws, Passes depth w) : Passes depth (joinComma ws) := by
  induction ws with
  | nil =>
      intro rest
      rfl
  | cons w ws ih =>
      have hw := h w List.mem_cons_self
      cases ws with
      | nil => exact hw
      | cons v ws =>
          exact hw.append ((passes_comma hdepth).append
            (ih fun u hu => h u (List.mem_cons_of_mem w hu)))

/-- Pieces with commas between them come apart again. -/
theorem splitTopLevel_join {ws : List Text} (hne : ws ≠ []) (h : ∀ w ∈ ws, Passes 0 w) :
    splitTopLevel (joinComma ws) ',' = ws := by
  unfold splitTopLevel
  induction ws with
  | nil => exact absurd rfl hne
  | cons w ws ih =>
      have hw := h w List.mem_cons_self
      cases ws with
      | nil =>
          have hrun := hw []
          rw [List.append_nil] at hrun
          show (splitLoop ',' 0 false 0 w).1 :: (splitLoop ',' 0 false 0 w).2 = [w]
          rw [hrun]
          show [w ++ []] = [w]
          rw [List.append_nil]
      | cons v ws =>
          have hrest := ih (List.cons_ne_nil v ws) fun u hu => h u (List.mem_cons_of_mem w hu)
          have hrun := hw (',' :: joinComma (v :: ws))
          have hcomma : splitLoop ',' 0 false 0 (',' :: joinComma (v :: ws)) =
              ([], (splitLoop ',' 0 false 0 (joinComma (v :: ws))).1 ::
                (splitLoop ',' 0 false 0 (joinComma (v :: ws))).2) := by
            rw [splitLoop, if_neg (by simp [marker]), if_neg (by decide), if_neg (by decide),
              if_neg (by decide), if_pos ⟨rfl, rfl⟩]
          show (splitLoop ',' 0 false 0 (w ++ ',' :: joinComma (v :: ws))).1 ::
            (splitLoop ',' 0 false 0 (w ++ ',' :: joinComma (v :: ws))).2 = _
          rw [hrun, hcomma, hrest]
          show (w ++ []) :: v :: ws = w :: v :: ws
          rw [List.append_nil]

/-! ## Decimal forms -/

theorem digitChar_spec {d : Nat} (h : d < 10) :
    isDigit (Char.ofNat ('0'.toNat + d)) = true ∧ digitValue (Char.ofNat ('0'.toNat + d)) = d ∧
      Char.ofNat ('0'.toNat + d) ≠ '_' := by
  have hall : ∀ d < 10, isDigit (Char.ofNat ('0'.toNat + d)) = true ∧
      digitValue (Char.ofNat ('0'.toNat + d)) = d ∧ Char.ofNat ('0'.toNat + d) ≠ '_' := by decide
  exact hall d h

theorem digitsFrom_cons {c : Char} (hc : isDigit c = true) (hunder : c ≠ '_') (acc : Nat) (t : Text) :
    digitsFrom acc (c :: t) = digitsFrom (acc * 10 + digitValue c) t := by
  rw [digitsFrom, if_pos hc]
  intro d u heq
  exact absurd heq hunder

theorem digitsFrom_map (ds : List Nat) (h : ∀ d ∈ ds, d < 10) (acc : Nat) :
    digitsFrom acc (ds.map fun d => Char.ofNat ('0'.toNat + d)) =
      some (ds.foldl (fun a d => a * 10 + d) acc) := by
  induction ds generalizing acc with
  | nil => rfl
  | cons d ds ih =>
      obtain ⟨hdigit, hvalue, hunder⟩ := digitChar_spec (h d List.mem_cons_self)
      rw [List.map_cons, digitsFrom_cons hdigit hunder, hvalue,
        ih fun e he => h e (List.mem_cons_of_mem d he)]
      rfl

theorem foldl_digits (n : Nat) :
    (Nat.digits 10 n).reverse.foldl (fun a d => a * 10 + d) 0 = n := by
  rw [List.foldl_reverse]
  have h := Nat.ofDigits_digits 10 n
  rw [Nat.ofDigits_eq_foldr] at h
  simp only [Nat.cast_id] at h
  conv_rhs => rw [← h]
  congr 1
  funext d a
  rw [Nat.mul_comm, Nat.add_comm]

theorem mem_decimal {n : Nat} {c : Char} (h : c ∈ decimal n) : isDigit c = true := by
  unfold decimal at h
  split at h
  · cases List.mem_singleton.1 h
    rfl
  · obtain ⟨d, hd, rfl⟩ := List.mem_map.1 h
    exact (digitChar_spec (Nat.digits_lt_base (by omega) (List.mem_reverse.1 hd))).1

theorem digits_decimal (n : Nat) : digits (decimal n) = some n := by
  unfold decimal
  split
  · rename_i hzero
    rw [hzero]
    rfl
  · rename_i hzero
    have hlt : ∀ d ∈ (Nat.digits 10 n).reverse, d < 10 := fun d hd =>
      Nat.digits_lt_base (by omega) (List.mem_reverse.1 hd)
    have hfold := foldl_digits n
    cases hds : (Nat.digits 10 n).reverse with
    | nil =>
        rw [List.reverse_eq_nil_iff, Nat.digits_eq_nil_iff_eq_zero] at hds
        exact absurd hds hzero
    | cons d ds =>
        rw [hds] at hlt hfold
        obtain ⟨hdigit, hvalue, -⟩ := digitChar_spec (hlt d List.mem_cons_self)
        rw [List.foldl_cons, Nat.zero_mul, Nat.zero_add] at hfold
        rw [List.map_cons, digits, if_pos hdigit, hvalue,
          digitsFrom_map ds (fun e he => hlt e (List.mem_cons_of_mem d he)), hfold]

theorem mem_intText {n : Int} {c : Char} (h : c ∈ intText n) : c = '-' ∨ isDigit c = true := by
  unfold intText at h
  split at h
  · rcases List.mem_cons.1 h with hc | hc
    · exact Or.inl hc
    · exact Or.inr (mem_decimal hc)
  · exact Or.inr (mem_decimal h)

theorem decimal_ne_nil (n : Nat) : decimal n ≠ [] := by
  intro hnil
  have h := digits_decimal n
  rw [hnil] at h
  cases h

theorem intText_ne_nil (n : Int) : intText n ≠ [] := by
  unfold intText
  split
  · exact List.cons_ne_nil _ _
  · exact decimal_ne_nil _

/-- A digit or a minus sign: nothing of the notation around a number. -/
theorem digit_plain {c : Char} (h : c = '-' ∨ isDigit c = true) :
    isBare c = true ∧ c ≠ '<' ∧ isSpace c = false := by
  rcases h with rfl | h
  · decide
  · have hrange : '0'.toNat ≤ c.toNat ∧ c.toNat ≤ '9'.toNat := by
      unfold isDigit at h
      rw [Bool.and_eq_true, decide_eq_true_eq, decide_eq_true_eq] at h
      exact h
    have hall : ∀ k < 10, isBare (Char.ofNat ('0'.toNat + k)) = true ∧
        Char.ofNat ('0'.toNat + k) ≠ '<' ∧ isSpace (Char.ofNat ('0'.toNat + k)) = false := by decide
    have hk := hall (c.toNat - '0'.toNat) (by
      have hnine : '9'.toNat = '0'.toNat + 9 := rfl
      omega)
    rwa [show '0'.toNat + (c.toNat - '0'.toNat) = c.toNat by omega, Char.ofNat_toNat] at hk

/-! ## Texts without white space around -/

/-- Neither end of the text is white space. -/
structure Tight (w : Text) : Prop where
  head : ∀ c ∈ w.head?, isSpace c = false
  last : ∀ c ∈ w.getLast?, isSpace c = false

theorem Tight.strip {w : Text} (h : Tight w) : Text.strip w = w := by
  have hl : lstrip w = w := by
    unfold lstrip
    rw [List.dropWhile_eq_self_iff]
    intro hl
    have hhead : w[0] ∈ w.head? := by
      rw [List.head?_eq_getElem?]
      exact List.getElem?_eq_getElem hl
    rw [h.head _ hhead]
    exact Bool.false_ne_true
  unfold Text.strip
  rw [hl]
  unfold rstrip
  rw [List.rdropWhile_eq_self_iff]
  intro hne
  rw [h.last _ (List.getLast?_eq_some_getLast hne)]
  exact Bool.false_ne_true

theorem tight_nil : Tight [] := ⟨fun _ hc => absurd hc (by simp), fun _ hc => absurd hc (by simp)⟩

theorem tight_of_forall {w : Text} (h : ∀ c ∈ w, isSpace c = false) : Tight w :=
  ⟨fun c hc => h c (List.mem_of_mem_head? hc), fun c hc => h c (List.mem_of_getLast? hc)⟩

theorem tight_of_all {w : Text} (h : (w.all fun c => !isSpace c) = true) : Tight w :=
  tight_of_forall fun c hc => Bool.not_eq_true' (isSpace c) ▸ List.all_eq_true.1 h c hc

theorem tight_brackets (o c : Char) (ho : isSpace o = false) (hc : isSpace c = false) (body : Text) :
    Tight (o :: (body ++ [c])) := by
  constructor
  · intro d hd
    cases hd
    exact ho
  · intro d hd
    rw [← List.cons_append, List.getLast?_concat] at hd
    cases hd
    exact hc

theorem pyInt_intText (n : Int) : pyInt (intText n) = some n := by
  have hstrip : strip (intText n) = intText n :=
    (tight_of_forall fun c hc => (digit_plain (mem_intText hc)).2.2).strip
  unfold pyInt
  rw [hstrip]
  unfold intText
  by_cases hn : n < 0
  · rw [if_pos hn]
    show (digits (decimal n.natAbs)).map (fun m => -(m : Int)) = some n
    rw [digits_decimal]
    show some (-(n.natAbs : Int)) = some n
    congr 1
    omega
  · rw [if_neg hn]
    have hnat : ((n.natAbs : Nat) : Int) = n := by omega
    split
    · rename_i t heq
      have hd : isDigit '-' = true := mem_decimal (heq ▸ List.mem_cons_self)
      cases hd
    · rename_i t heq
      have hd : isDigit '+' = true := mem_decimal (heq ▸ List.mem_cons_self)
      cases hd
    · rw [digits_decimal]
      exact congrArg some hnat

/-! ## What a value comes back as -/

mutual

/-- The value with a list of one empty text for every empty list. -/
def fill : GemmaValue → GemmaValue
  | .list xs => .list (if xs.isEmpty then [.str []] else fillItems xs)
  | .dict ms => .dict (fillMembers ms)
  | v => v

def fillItems : List GemmaValue → List GemmaValue
  | [] => []
  | x :: xs => fill x :: fillItems xs

def fillMembers : List (Text × GemmaValue) → List (Text × GemmaValue)
  | [] => []
  | (k, x) :: ms => (k, fill x) :: fillMembers ms

end

theorem cut_marker (s : Text) : cut (marker ++ (s ++ marker)) marker.length marker.length = s := by
  unfold cut
  rw [List.drop_left, List.length_append, List.length_append,
    show marker.length + (s.length + marker.length) - marker.length - marker.length = s.length by omega,
    List.take_left]

theorem cut_brackets (o c : Char) (body : Text) : cut (o :: (body ++ [c])) 1 1 = body := by
  unfold cut
  rw [List.length_cons, List.length_append, List.length_singleton,
    show body.length + 1 + 1 - 1 - 1 = body.length by omega]
  show (body ++ [c]).take body.length = body
  rw [List.take_left]

theorem tight_string (s : Text) : Tight (marker ++ (s ++ marker)) := by
  have hm : marker ++ (s ++ marker) = '<' :: (("|\"|>".toList ++ s ++ "<|\"|".toList) ++ ['>']) := by
    simp [marker]
  rw [hm]
  exact tight_brackets '<' '>' rfl rfl _

theorem tight_render : ∀ v, Renderable v → Tight (render v) := by
  intro v h
  cases v with
  | null => exact tight_of_all rfl
  | bool b => cases b <;> exact tight_of_all rfl
  | int n => exact tight_of_forall fun c hc => (digit_plain (mem_intText hc)).2.2
  | float literal => exact h.elim
  | str s => exact tight_string s
  | list xs => exact tight_brackets '[' ']' rfl rfl _
  | dict ms => exact tight_brackets '{' '}' rfl rfl _

/-! ## The splitter on rendered values -/

/-- A key and its colon. -/
theorem passes_key {k : Text} (h : IsKey k) (depth : Int) : Passes depth (k ++ [':']) := by
  intro rest
  apply splitLoop_bare
  · intro c hc
    rcases List.mem_append.1 hc with hc | hc
    · have hkey := (h.1 c hc).1
      simp only [List.mem_cons, List.not_mem_nil, or_false, not_or] at hkey
      simp [isBare, hkey]
    · cases List.mem_singleton.1 hc
      rfl
  · intro i hi
    rw [List.append_assoc, List.singleton_append]
    by_cases hlt : i < k.length
    · exact not_occursAt_seam h.2 (by decide) rest i hlt
    · rw [List.length_append, List.length_singleton] at hi
      obtain rfl : i = k.length := by omega
      intro hocc
      have hpre : marker <+: ':' :: rest := occursAt_zero.1 (occursAt_append_left.1 hocc)
      exact absurd (List.cons_prefix_cons.1 hpre).1 (by decide)

mutual

theorem passes_render : ∀ v, Renderable v → ∀ depth : Int, 0 ≤ depth → Passes depth (render v)
  | .null, _, depth, _ => passes_bare (List.all_eq_true.1 rfl) (by decide) depth
  | .bool true, _, depth, _ => passes_bare (List.all_eq_true.1 rfl) (by decide) depth
  | .bool false, _, depth, _ => passes_bare (List.all_eq_true.1 rfl) (by decide) depth
  | .int _, _, depth, _ =>
      passes_bare (fun _ hc => (digit_plain (mem_intText hc)).1)
        (fun hc => (digit_plain (mem_intText hc)).2.1 rfl) depth
  | .float _, h, _, _ => h.elim
  | .str _, h, depth, _ => passes_string h depth
  | .list xs, h, depth, hd =>
      passes_brackets (Or.inl rfl) (Or.inl rfl)
        (passes_join (by omega) (passes_items xs h (depth + 1) (by omega)))
  | .dict ms, h, depth, hd =>
      passes_brackets (Or.inr rfl) (Or.inr rfl)
        (passes_join (by omega) (passes_members ms h.2 (depth + 1) (by omega)))

theorem passes_items : ∀ xs, RenderableItems xs → ∀ depth : Int, 0 ≤ depth →
    ∀ w ∈ renderItems xs, Passes depth w
  | [], _, _, _, _, hw => absurd hw List.not_mem_nil
  | x :: xs, h, depth, hd, w, hw => by
      rcases List.mem_cons.1 hw with rfl | hw
      · exact passes_render x h.1 depth hd
      · exact passes_items xs h.2 depth hd w hw

theorem passes_members : ∀ ms, RenderableMembers ms → ∀ depth : Int, 0 ≤ depth →
    ∀ w ∈ renderMembers ms, Passes depth w
  | [], _, _, _, _, hw => absurd hw List.not_mem_nil
  | (k, x) :: ms, h, depth, hd, w, hw => by
      rcases List.mem_cons.1 hw with rfl | hw
      · have hx := (passes_key h.1 depth).append (passes_render x h.2.1 depth hd)
        rwa [List.append_assoc, List.singleton_append] at hx
      · exact passes_members ms h.2.2 depth hd w hw

end

/-! ## The parser on rendered values -/

theorem valueAt_number (depth : Nat) (n : Int) : valueAt (depth + 1) (intText n) = some (.int n) := by
  have hmem : ∀ c ∈ intText n, c = '-' ∨ isDigit c = true := fun _ => mem_intText
  have hstrip : strip (intText n) = intText n :=
    (tight_of_forall fun c hc => (digit_plain (hmem c hc)).2.2).strip
  obtain ⟨c, t, hct⟩ := List.exists_cons_of_ne_nil (intText_ne_nil n)
  have hc := hmem c (hct ▸ List.mem_cons_self)
  have hnot : ∀ d : Char, (d ≠ '-' ∧ isDigit d = false) → d ≠ c := by
    intro d hd hdc
    rw [← hdc] at hc
    rcases hc with hc | hc
    · exact hd.1 hc
    · rw [hd.2] at hc
      cases hc
  unfold valueAt
  rw [hstrip]
  have hint := pyInt_intText n
  rw [hct] at hint ⊢
  have hlt := hnot '<' (by decide)
  have ht := hnot 't' (by decide)
  have hf := hnot 'f' (by decide)
  have hn := hnot 'n' (by decide)
  have hN := hnot 'N' (by decide)
  have hb := hnot '{' (by decide)
  have hs := hnot '[' (by decide)
  rw [if_neg (by simp [marker, hlt]), if_neg (by simp [Ne.symm ht]), if_neg (by simp [Ne.symm hf]),
    if_neg (by simp [Ne.symm hn, Ne.symm hN]), if_neg (by simp [hb]), if_neg (by simp [hs]), hint]

theorem valueAt_string (depth : Nat) (s : Text) :
    valueAt (depth + 1) (marker ++ (s ++ marker)) = some (.str s) := by
  unfold valueAt
  rw [(tight_string s).strip, if_pos, cut_marker]
  refine ⟨List.prefix_append _ _, ?_⟩
  rw [← List.append_assoc]
  exact List.suffix_append _ _

theorem valueAt_list (depth : Nat) (body : Text) :
    valueAt (depth + 1) ('[' :: (body ++ [']'])) =
      ((splitTopLevel body ',').mapM (valueAt depth)).map .list := by
  unfold valueAt
  rw [(tight_brackets '[' ']' rfl rfl body).strip, if_neg (by simp [marker]), if_neg (by simp),
    if_neg (by simp), if_neg (by simp), if_neg (by simp), if_pos, cut_brackets]
  exact ⟨by simp, List.suffix_append ('[' :: body) [']']⟩

theorem valueAt_dict (depth : Nat) (body : Text) :
    valueAt (depth + 1) ('{' :: (body ++ ['}'])) = (callArgs (valueAt depth) body).map .dict := by
  unfold valueAt
  rw [(tight_brackets '{' '}' rfl rfl body).strip, if_neg (by simp [marker]), if_neg (by simp),
    if_neg (by simp), if_neg (by simp), if_pos, cut_brackets]
  exact ⟨by simp, List.suffix_append ('{' :: body) ['}']⟩

theorem splitTopLevel_nil : splitTopLevel [] ',' = [[]] := rfl

theorem render_ne_nil : ∀ v, Renderable v → render v ≠ [] := by
  intro v h
  cases v with
  | null => decide
  | bool b => cases b <;> decide
  | int n => exact intText_ne_nil n
  | float literal => exact h.elim
  | str s => exact List.cons_ne_nil _ _
  | list xs => exact List.cons_ne_nil _ _
  | dict ms => exact List.cons_ne_nil _ _

/-- The text of a member and the parts the parser finds in it. -/
theorem member_parts {k w : Text} (hk : IsKey k) (hw : Tight w) (hne : w ≠ []) :
    strip (k ++ ':' :: w) ≠ [] ∧ ':' ∈ k ++ ':' :: w ∧
      strip ((k ++ ':' :: w).takeWhile (· ≠ ':')) = k ∧
      strip ((k ++ ':' :: w).dropWhile (· ≠ ':')).tail = w := by
  have hcolon : ∀ c ∈ k, decide (c ≠ ':') = true := by
    intro c hc
    have hkey := (hk.1 c hc).1
    simp only [List.mem_cons, not_or] at hkey
    exact decide_eq_true hkey.1
  have htight : Tight (k ++ ':' :: w) := by
    constructor
    · intro c hc
      cases k with
      | nil =>
          cases hc
          rfl
      | cons d k =>
          cases hc
          exact (hk.1 _ List.mem_cons_self).2
    · intro c hc
      rw [List.getLast?_append_cons, List.getLast?_cons_of_ne_nil hne] at hc
      exact hw.last c hc
  refine ⟨?_, by simp, ?_, ?_⟩
  · rw [htight.strip]
    simp
  · rw [List.takeWhile_append_of_pos hcolon, List.takeWhile_cons_of_neg (by decide), List.append_nil]
    exact (tight_of_forall fun c hc => (hk.1 c hc).2).strip
  · rw [List.dropWhile_append_of_pos hcolon, List.dropWhile_cons_of_neg (by decide)]
    exact hw.strip

theorem fst_fillMembers : ∀ ms, (fillMembers ms).map Prod.fst = ms.map Prod.fst
  | [] => rfl
  | (k, _) :: ms => congrArg (k :: ·) (fst_fillMembers ms)

theorem length_le_join {ws : List Text} {w : Text} (h : w ∈ ws) : w.length ≤ (joinComma ws).length := by
  induction ws with
  | nil => exact absurd h List.not_mem_nil
  | cons v ws ih =>
      cases ws with
      | nil =>
          rw [List.mem_singleton.1 h]
          exact Nat.le_refl _
      | cons u us =>
          show w.length ≤ (v ++ ',' :: joinComma (u :: us)).length
          rw [List.length_append, List.length_cons]
          rcases List.mem_cons.1 h with rfl | h
          · omega
          · have := ih h
            omega

theorem renderItems_ne_nil {xs : List GemmaValue} (h : xs ≠ []) : renderItems xs ≠ [] := by
  cases xs with
  | nil => exact absurd rfl h
  | cons x xs => exact List.cons_ne_nil _ _

theorem renderMembers_ne_nil {ms : List (Text × GemmaValue)} (h : ms ≠ []) : renderMembers ms ≠ [] := by
  cases ms with
  | nil => exact absurd rfl h
  | cons m ms => exact List.cons_ne_nil _ _

mutual

theorem valueAt_render : ∀ v, Renderable v → ∀ depth, (render v).length < depth →
    valueAt depth (render v) = some (fill v)
  | _, _, 0, hd => absurd hd (Nat.not_lt_zero _)
  | .null, _, _ + 1, _ => rfl
  | .bool true, _, _ + 1, _ => rfl
  | .bool false, _, _ + 1, _ => rfl
  | .int n, _, depth + 1, _ => valueAt_number depth n
  | .float _, h, _, _ => h.elim
  | .str s, _, depth + 1, _ => valueAt_string depth s
  | .list [], _, depth + 1, hd => by
      cases depth with
      | zero => exact absurd hd (by decide)
      | succ depth => rfl
  | .list (x :: xs), h, depth + 1, hd => by
      have hlen : (joinComma (renderItems (x :: xs))).length < depth := by
        simp only [render, List.length_cons, List.length_append] at hd
        omega
      have hitems := valueAt_items (x :: xs) h depth fun w hw =>
        Nat.lt_of_le_of_lt (length_le_join hw) hlen
      show valueAt (depth + 1) ('[' :: (joinComma (renderItems (x :: xs)) ++ [']'])) = _
      rw [valueAt_list, splitTopLevel_join (renderItems_ne_nil (List.cons_ne_nil x xs))
        (passes_items (x :: xs) h 0 (Int.le_refl 0)), hitems]
      rfl
  | .dict ms, h, depth + 1, hd => by
      have hlen : (joinComma (renderMembers ms)).length < depth := by
        simp only [render, List.length_cons, List.length_append] at hd
        omega
      show valueAt (depth + 1) ('{' :: (joinComma (renderMembers ms) ++ ['}'])) = _
      rw [valueAt_dict, callArgs_members ms h.1 h.2 depth hlen]
      rfl

theorem valueAt_items : ∀ xs, RenderableItems xs → ∀ depth,
    (∀ w ∈ renderItems xs, w.length < depth) →
    (renderItems xs).mapM (valueAt depth) = some (fillItems xs)
  | [], _, _, _ => rfl
  | x :: xs, h, depth, hd => by
      have hx := valueAt_render x h.1 depth (hd _ List.mem_cons_self)
      have hxs := valueAt_items xs h.2 depth fun w hw => hd w (List.mem_cons_of_mem _ hw)
      show (render x :: renderItems xs).mapM (valueAt depth) = _
      rw [List.mapM_cons, hx, hxs]
      rfl

theorem callArg_members : ∀ ms, RenderableMembers ms → ∀ depth,
    (∀ w ∈ renderMembers ms, w.length < depth) → ∀ args : List (Text × GemmaValue),
    (args.map Prod.fst ++ ms.map Prod.fst).Nodup →
    (renderMembers ms).foldlM (callArg (valueAt depth)) args = some (args ++ fillMembers ms)
  | [], _, _, _, args, _ => congrArg some (List.append_nil args).symm
  | (k, x) :: ms, h, depth, hd, args, hkeys => by
      obtain ⟨hne, hcolon, hkey, hval⟩ := member_parts h.1 (tight_render x h.2.1) (render_ne_nil x h.2.1)
      have hlen : (render x).length < depth := by
        have := hd _ List.mem_cons_self
        rw [List.length_append, List.length_cons] at this
        omega
      have hnew : k ∉ args.map Prod.fst := by
        intro hmem
        exact (List.nodup_append.1 hkeys).2.2 k hmem k List.mem_cons_self rfl
      have hstep : callArg (valueAt depth) args (k ++ ':' :: render x) = some (args ++ [(k, fill x)]) := by
        unfold callArg
        rw [if_neg hne, if_neg (not_not_intro hcolon), hval, hkey, valueAt_render x h.2.1 depth hlen]
        exact congrArg some (Json.dictSet_new hnew (fill x))
      show ((k ++ ':' :: render x) :: renderMembers ms).foldlM (callArg (valueAt depth)) args = _
      rw [List.foldlM_cons, hstep]
      show (renderMembers ms).foldlM (callArg (valueAt depth)) (args ++ [(k, fill x)]) = _
      rw [callArg_members ms h.2.2 depth (fun w hw => hd w (List.mem_cons_of_mem _ hw))]
      · rw [List.append_assoc]
        rfl
      · rwa [List.map_append, List.append_assoc]

theorem callArgs_members : ∀ ms, (ms.map Prod.fst).Nodup → RenderableMembers ms → ∀ depth,
    (joinComma (renderMembers ms)).length < depth →
    callArgs (valueAt depth) (joinComma (renderMembers ms)) = some (fillMembers ms)
  | [], _, _, _, _ => rfl
  | m :: ms, hkeys, h, depth, hd => by
      unfold callArgs
      rw [splitTopLevel_join (renderMembers_ne_nil (List.cons_ne_nil m ms))
        (passes_members (m :: ms) h 0 (Int.le_refl 0))]
      exact callArg_members (m :: ms) h depth
        (fun w hw => Nat.lt_of_le_of_lt (length_le_join hw) hd) [] hkeys

end

mutual

/-- Only an empty list is changed. -/
theorem fill_eq_self : ∀ v, fill v = v ↔ NoEmptyList v
  | .null | .bool _ | .int _ | .float _ | .str _ => iff_of_true rfl trivial
  | .list [] => by
      constructor
      · intro h
        cases h
      · intro h
        exact absurd rfl h.1
  | .list (x :: xs) => by
      show GemmaValue.list (fillItems (x :: xs)) = .list (x :: xs) ↔ _
      rw [GemmaValue.list.injEq, fillItems_eq_self]
      exact (and_iff_right (List.cons_ne_nil x xs)).symm
  | .dict ms => by
      show GemmaValue.dict (fillMembers ms) = .dict ms ↔ _
      rw [GemmaValue.dict.injEq, fillMembers_eq_self]
      rfl

theorem fillItems_eq_self : ∀ xs, fillItems xs = xs ↔ NoEmptyItems xs
  | [] => iff_of_true rfl trivial
  | x :: xs => by
      show fill x :: fillItems xs = x :: xs ↔ NoEmptyList x ∧ NoEmptyItems xs
      rw [List.cons.injEq, fill_eq_self, fillItems_eq_self]

theorem fillMembers_eq_self : ∀ ms, fillMembers ms = ms ↔ NoEmptyMembers ms
  | [] => iff_of_true rfl trivial
  | (k, x) :: ms => by
      show (k, fill x) :: fillMembers ms = (k, x) :: ms ↔ NoEmptyList x ∧ NoEmptyMembers ms
      rw [List.cons.injEq, Prod.mk.injEq, fill_eq_self, fillMembers_eq_self]
      exact and_congr_left' (and_iff_right rfl)

end

/-! ## The parser inverts the notation -/

/-- The value comes back, and the members of an object also from the text between its braces. -/
def Inverts (v : GemmaValue) : Prop :=
  parseGemmaValue (render v) = some v ∧
    ∀ ms, v = .dict ms → parseGemmaCallArgs (joinComma (renderMembers ms)) = some ms

theorem parseGemmaValue_render {v : GemmaValue} (h : Renderable v) :
    parseGemmaValue (render v) = some (fill v) :=
  valueAt_render v h _ (Nat.lt_succ_self _)

theorem parseGemmaCallArgs_render {ms : List (Text × GemmaValue)} (h : Renderable (.dict ms)) :
    parseGemmaCallArgs (joinComma (renderMembers ms)) = some (fillMembers ms) :=
  callArgs_members ms h.1 h.2 _ (Nat.lt_succ_self _)

end GemmaArgs

end FreeToken
