import Mathlib.Tactic.FinCases
import FreeToken.Message.Wire

/-!
# Every message survives the wire

Decoding undoes encoding, whatever keys the dicts inside a message use: a dict that could be taken
for an instance or for a wrapper is itself wrapped.
-/

set_option autoImplicit false

namespace FreeToken

namespace Wire

variable {m : Module} {k : String} {items es : List Item}

theorem Res.bind_eq_ok {α β : Type} {x : Res α} {f : α → Res β} {b : β} :
    (x >>= f) = .ok b ↔ ∃ a, x = .ok a ∧ f a = .ok b := by
  cases x with
  | error e => simp [bind, Except.bind]
  | ok a => simp [bind, Except.bind]

/-! ## Dicts -/

theorem hasKey_iff : hasKey k items = true ↔ k ∈ items.map Prod.fst := by
  unfold hasKey
  simp only [List.any_eq_true, decide_eq_true_eq, List.mem_map]

theorem hasKey_congr (h : es.map Prod.fst = items.map Prod.fst) : hasKey k es = hasKey k items := by
  rw [Bool.eq_iff_iff, hasKey_iff, hasKey_iff, h]

/-- With distinct keys a lookup finds the item. -/
theorem get?_of_mem (hnd : (items.map Prod.fst).Nodup) {kv : Item} (h : kv ∈ items) :
    get? kv.1 items = some kv.2 := by
  induction items with
  | nil => cases h
  | cons x rest ih =>
      rw [List.map_cons, List.nodup_cons] at hnd
      unfold get?
      by_cases hx : x.1 = kv.1
      · rw [List.find?_cons_of_pos (by simpa using hx)]
        rcases List.mem_cons.1 h with rfl | hr
        · rfl
        · exact absurd (hx ▸ List.mem_map_of_mem hr) hnd.1
      · rw [List.find?_cons_of_neg (by simpa using hx)]
        rcases List.mem_cons.1 h with rfl | hr
        · exact absurd rfl hx
        · exact ih hnd.2 hr

/-- Setting new keys one after the other adds them at the end. -/
theorem foldl_setKey (d : List Item) : ∀ items : List Item, (items.map Prod.fst).Nodup →
    (∀ kv ∈ items, kv.1 ∉ d.map Prod.fst) → items.foldl setKey d = d ++ items := by
  intro items
  induction items generalizing d with
  | nil => simp
  | cons kv rest ih =>
      intro hnd hnew
      rw [List.map_cons, List.nodup_cons] at hnd
      have hkv : hasKey kv.1 d = false := by
        rw [Bool.eq_false_iff, ne_eq, hasKey_iff]
        exact hnew kv List.mem_cons_self
      rw [List.foldl_cons, setKey, if_neg (by rw [hkv]; exact Bool.false_ne_true),
        ih (d ++ [kv]) hnd.2 ?_, List.append_assoc, List.singleton_append]
      intro x hx hmem
      rw [List.map_append, List.mem_append] at hmem
      rcases hmem with hmem | hmem
      · exact hnew x (List.mem_cons_of_mem _ hx) hmem
      · have hxk : x.1 = kv.1 := by simpa using hmem
        exact hnd.1 (hxk ▸ List.mem_map_of_mem hx)

/-! ## Tensors -/

theorem ofName_dtypeName (d : NpDtype) : NpDtype.ofName (dtypeName (Dtype.np d).str) = some d := by
  have hall : ∀ d ∈ NpDtype.all, NpDtype.ofName (dtypeName (Dtype.np d).str) = some d := by decide
  apply hall
  cases d <;> decide

theorem chunks_flatten {k : Nat} : ∀ es : List (List UInt8), (∀ e ∈ es, e.length = k) →
    chunks k es.length es.flatten = es := by
  intro es
  induction es with
  | nil => exact fun _ => rfl
  | cons e es ih =>
      intro h
      have he := h e List.mem_cons_self
      rw [List.length_cons, chunks, List.flatten_cons, ← he, List.take_left, List.drop_left, he,
        ih fun x hx => h x (List.mem_cons_of_mem _ hx)]

theorem length_flatten {k : Nat} {es : List (List UInt8)} (h : ∀ e ∈ es, e.length = k) :
    es.flatten.length = es.length * k := by
  induction es with
  | nil => simp
  | cons e es ih =>
      rw [List.flatten_cons, List.length_append, h e List.mem_cons_self,
        ih fun x hx => h x (List.mem_cons_of_mem _ hx), List.length_cons, Nat.succ_mul, Nat.add_comm]

theorem NpDtype.itemsize_pos (d : NpDtype) : 0 < d.itemsize := by
  cases d <;> decide

/-- A tensor's buffer read back. -/
theorem fromBuffer_flatten {t : Tensor} (hdim : t.shape.length = 1) {d : NpDtype}
    (hd : t.dtype = .np d) : fromBuffer d t.elems.flatten = .ok t := by
  obtain ⟨n, hn⟩ := List.length_eq_one_iff.1 hdim
  have hsize : ∀ e ∈ t.elems, e.length = d.itemsize := by
    intro e he
    rw [t.size e he, hd]
    rfl
  have hcount : t.elems.length = n := by rw [t.count, hn, List.prod_singleton]
  have hlen := length_flatten hsize
  have hdiv : t.elems.flatten.length / d.itemsize = t.elems.length := by
    rw [hlen, Nat.mul_div_cancel _ d.itemsize_pos]
  unfold fromBuffer
  rw [dif_pos (by rw [hdiv, hlen])]
  congr 1
  apply Tensor.ext
  · exact hd.symm
  · show [t.elems.flatten.length / d.itemsize] = t.shape
    rw [hdiv, hcount, hn]
  · show chunks d.itemsize (t.elems.flatten.length / d.itemsize) t.elems.flatten = t.elems
    rw [hdiv, chunks_flatten t.elems hsize]

/-- What a tensor travels as. -/
def tensorItems (t : Tensor) : List Item :=
  [("__type__", .str "Tensor"), ("buffer", .bytes t.elems.flatten), ("dtype", .str t.dtype.str)]

theorem deserializeTensor_items {t : Tensor} (hdim : t.shape.length = 1) {d : NpDtype}
    (hd : t.dtype = .np d) : deserializeTensor (tensorItems t) = .ok (.tensor t) := by
  have hbuffer : get? "buffer" (tensorItems t) = some (.bytes t.elems.flatten) := by
    simp [get?, tensorItems]
  have hdtype : get? "dtype" (tensorItems t) = some (.str (Dtype.np d).str) := by
    simp [get?, tensorItems, hd]
  unfold deserializeTensor
  rw [hbuffer, hdtype]
  dsimp only
  rw [ofName_dtypeName d]
  dsimp only
  rw [fromBuffer_flatten hdim hd]
  rfl

theorem tensor_roundTrip {t : Tensor} (hdim : t.shape.length = 1) {d : NpDtype}
    (hd : t.dtype = .np d) (m : Module) :
    ∃ e, serializeTensor t = .ok e ∧ deserializeAny m e = .ok (.tensor t) := by
  have htype : get? "__type__" (tensorItems t) = some (.str "Tensor") := by
    simp [get?, tensorItems]
  have hkey : hasKey typeKey (tensorItems t) = true := by
    simp [hasKey, tensorItems, typeKey]
  refine ⟨.dict (tensorItems t), ?_, ?_⟩
  · unfold serializeTensor tensorItems
    rw [if_pos hdim, hd]
  · rw [deserializeAny, if_neg (by simp [isRaw, tensorItems]), if_pos hkey]
    unfold deserializeWith
    rw [htype]
    dsimp only
    rw [if_pos rfl]
    exact deserializeTensor_items hdim hd

/-! ## Instances -/

/-- What the decoder needs of a module's classes. -/
structure Module.Sound (m : Module) : Prop where
  names : (m.map PyClass.name).Nodup
  tensor : ∀ c ∈ m, c.name ≠ "Tensor"
  fields : ∀ c ∈ m, (c.fields.map Field.name).Nodup
  untagged : ∀ c ∈ m, typeKey ∉ c.fields.map Field.name

theorem modules_sound : ∀ m ∈ modules, m.Sound := by
  intro m hm
  have h : ∀ m ∈ modules, (m.map PyClass.name).Nodup ∧ ∀ c ∈ m, c.name ≠ "Tensor" ∧
      (c.fields.map Field.name).Nodup ∧ typeKey ∉ c.fields.map Field.name := by decide
  obtain ⟨hn, hc⟩ := h m hm
  exact ⟨hn, fun c hcm => (hc c hcm).1, fun c hcm => (hc c hcm).2.1, fun c hcm => (hc c hcm).2.2⟩

theorem Module.Sound.find (hm : m.Sound) {c : PyClass} (hc : c ∈ m) :
    (m.find? fun x => x.name = c.name) = some c := by
  obtain ⟨hnd, -, -, -⟩ := hm
  induction m with
  | nil => cases hc
  | cons x rest ih =>
      rw [List.map_cons, List.nodup_cons] at hnd
      by_cases hx : x.name = c.name
      · rw [List.find?_cons_of_pos (by simpa using hx)]
        rcases List.mem_cons.1 hc with rfl | hr
        · rfl
        · exact absurd (hx ▸ List.mem_map_of_mem hr) hnd.1
      · rw [List.find?_cons_of_neg (by simpa using hx)]
        rcases List.mem_cons.1 hc with rfl | hr
        · exact absurd rfl hx
        · exact ih hr hnd.2

theorem bindFields_eq {kwargs : List Item} (hnd : (kwargs.map Prod.fst).Nodup) :
    ∀ (fs : List Field) (items : List Item), items.map Prod.fst = fs.map Field.name →
      (∀ kv ∈ items, kv ∈ kwargs) → bindFields kwargs fs = .ok items := by
  intro fs
  induction fs with
  | nil =>
      intro items hnames _
      rw [List.map_eq_nil_iff.1 hnames]
      rfl
  | cons f fs ih =>
      intro items hnames hmem
      cases items with
      | nil => cases hnames
      | cons kv items =>
          rw [List.map_cons, List.map_cons, List.cons.injEq] at hnames
          have hget := get?_of_mem hnd (hmem kv List.mem_cons_self)
          rw [hnames.1] at hget
          rw [bindFields, hget, ih items hnames.2 fun x hx => hmem x (List.mem_cons_of_mem _ hx)]
          show Except.ok ((f.name, kv.2) :: items) = _
          rw [← hnames.1]

/-- A class called with its own fields by name. -/
theorem construct_eq {c : PyClass} (hnd : (c.fields.map Field.name).Nodup) {kwargs : List Item}
    (hnames : kwargs.map Prod.fst = c.fields.map Field.name) :
    construct c kwargs = .ok (.obj c.name kwargs) := by
  have hnone : (kwargs.find? fun kv => !c.fields.any fun f => f.name = kv.1) = none := by
    rw [List.find?_eq_none]
    intro kv hkv
    have hmem : kv.1 ∈ c.fields.map Field.name := hnames ▸ List.mem_map_of_mem hkv
    obtain ⟨f, hf, hfk⟩ := List.mem_map.1 hmem
    simp only [Bool.not_eq_true', Bool.not_eq_false, List.any_eq_true, decide_eq_true_eq]
    exact ⟨f, hf, hfk⟩
  unfold construct
  rw [hnone]
  dsimp only
  rw [bindFields_eq (by rw [hnames]; exact hnd) c.fields kwargs hnames fun _ h => h]
  rfl

/-! ## Values -/

/-- The values a message is built from. -/
inductive Built (m : Module) : PyValue → Prop
  | none : Built m .none
  | bool (b : Bool) : Built m (.bool b)
  | int (i : Int) : Built m (.int i)
  | float (x : UInt64) : Built m (.float x)
  | str (s : String) : Built m (.str s)
  | bytes (b : List UInt8) : Built m (.bytes b)
  | list {xs : List PyValue} (h : ∀ x ∈ xs, Built m x) : Built m (.list xs)
  | dict {items : List Item} (keys : (items.map Prod.fst).Nodup)
      (h : ∀ kv ∈ items, Built m kv.2) : Built m (.dict items)
  | tensor {t : Tensor} (dim : t.shape.length = 1) {d : NpDtype} (np : t.dtype = .np d) :
      Built m (.tensor t)
  | obj {c : PyClass} (hc : c ∈ m) {fields : List Item}
      (names : fields.map Prod.fst = c.fields.map Field.name) (h : ∀ kv ∈ fields, Built m kv.2) :
      Built m (.obj c.name fields)

/-- A value that is encoded and decoded again. -/
def Survives (m : Module) (v : PyValue) : Prop :=
  ∃ e, serializeAny v = .ok e ∧ deserializeAny m e = .ok v

theorem survives_list {xs : List PyValue} (h : ∀ x ∈ xs, Survives m x) :
    ∃ es, serializeList xs = .ok es ∧ deserializeList m es = .ok xs := by
  induction xs with
  | nil => exact ⟨[], rfl, rfl⟩
  | cons x xs ih =>
      obtain ⟨e, he, hd⟩ := h x List.mem_cons_self
      obtain ⟨es, hes, hds⟩ := ih fun y hy => h y (List.mem_cons_of_mem _ hy)
      refine ⟨e :: es, ?_, ?_⟩
      · rw [serializeList, he, hes]
        rfl
      · rw [deserializeList, hd, hds]
        rfl

theorem survives_items {items : List Item} (h : ∀ kv ∈ items, Survives m kv.2) :
    ∃ es, serializeItems items = .ok es ∧ es.map Prod.fst = items.map Prod.fst ∧
      deserializeItems m es = .ok items := by
  induction items with
  | nil => exact ⟨[], rfl, rfl, rfl⟩
  | cons kv items ih =>
      obtain ⟨k, v⟩ := kv
      obtain ⟨e, he, hd⟩ := h (k, v) List.mem_cons_self
      obtain ⟨es, hes, hkeys, hds⟩ := ih fun y hy => h y (List.mem_cons_of_mem _ hy)
      refine ⟨(k, e) :: es, ?_, ?_, ?_⟩
      · rw [serializeItems, he, hes]
        rfl
      · rw [List.map_cons, List.map_cons, hkeys]
      · rw [deserializeItems, hd, hds]
        rfl

/-- Without the type key the keyword arguments are all the items. -/
theorem deserializeKwargs_eq {es : List Item} (h : typeKey ∉ es.map Prod.fst) :
    deserializeKwargs m es = deserializeItems m es := by
  induction es with
  | nil => rfl
  | cons kv es ih =>
      obtain ⟨k, e⟩ := kv
      rw [List.map_cons, List.mem_cons, not_or] at h
      rw [deserializeKwargs, if_neg fun hk => h.1 hk.symm, deserializeItems, ih h.2]

/-- A dict comes back as a dict, whatever its keys. -/
theorem survives_dict {items : List Item} (h : ∀ kv ∈ items, Survives m kv.2) :
    Survives m (.dict items) := by
  obtain ⟨es, hes, hkeys, hds⟩ := survives_items h
  refine ⟨escape es, ?_, ?_⟩
  · rw [serializeAny, hes]
    rfl
  · unfold escape
    by_cases hkey : (hasKey typeKey es || hasKey rawDictKey es) = true
    · -- a wrapped dict is told by its one key, and its own keys are not looked at
      rw [if_pos hkey, deserializeAny, if_pos (by simp [isRaw, hasKey]), deserializeRaw,
        deserializeInner, hds]
      rfl
    · rw [if_neg hkey]
      rw [Bool.or_eq_true, not_or] at hkey
      rw [deserializeAny, if_neg (by simp [isRaw, hkey.2]), if_neg hkey.1, hds]
      rfl

theorem serializeFields_eq {cls : String} {es : List Item} (hnd : (es.map Prod.fst).Nodup)
    (htype : typeKey ∉ es.map Prod.fst) :
    serializeFields cls es = .dict (("__type__", .str cls) :: es) := by
  unfold serializeFields
  rw [foldl_setKey _ es hnd]
  · rfl
  · intro kv hkv hmem
    have hk : kv.1 = typeKey := by simpa [typeKey] using hmem
    exact htype (hk ▸ List.mem_map_of_mem hkv)

/-- An instance decoded from the items of its fields. -/
theorem deserializeWith_fields (hm : m.Sound) {c : PyClass} (hc : c ∈ m) {fields es : List Item}
    (hnames : fields.map Prod.fst = c.fields.map Field.name)
    (hkeys : es.map Prod.fst = fields.map Prod.fst) (hds : deserializeItems m es = .ok fields) :
    deserializeWith m (("__type__", .str c.name) :: es)
      (deserializeKwargs m (("__type__", .str c.name) :: es)) = .ok (.obj c.name fields) := by
  have htype : typeKey ∉ es.map Prod.fst := by
    rw [hkeys, hnames]
    exact hm.untagged c hc
  have hkw : deserializeKwargs m (("__type__", .str c.name) :: es) = .ok fields := by
    rw [deserializeKwargs, if_pos (show "__type__" = typeKey from rfl), deserializeKwargs_eq htype,
      hds]
  have hget : get? "__type__" (("__type__", .str c.name) :: es) = some (.str c.name) := by
    simp [get?]
  unfold deserializeWith
  rw [hget, hkw]
  dsimp only
  rw [if_neg (hm.tensor c hc), hm.find hc]
  exact construct_eq (hm.fields c hc) hnames

theorem survives_obj (hm : m.Sound) {c : PyClass} (hc : c ∈ m) {fields : List Item}
    (hnames : fields.map Prod.fst = c.fields.map Field.name)
    (h : ∀ kv ∈ fields, Survives m kv.2) :
    ∃ e, serializeType (.obj c.name fields) = .ok e ∧ serializeAny (.obj c.name fields) = .ok e ∧
      deserializeAny m e = .ok (.obj c.name fields) ∧
      deserializeType m e = .ok (.obj c.name fields) := by
  obtain ⟨es, hes, hkeys, hds⟩ := survives_items h
  have hnd : (es.map Prod.fst).Nodup := by
    rw [hkeys, hnames]
    exact hm.fields c hc
  have htype : typeKey ∉ es.map Prod.fst := by
    rw [hkeys, hnames]
    exact hm.untagged c hc
  have hwith := deserializeWith_fields hm hc hnames hkeys hds
  refine ⟨.dict (("__type__", .str c.name) :: es), ?_, ?_, ?_, ?_⟩
  · rw [serializeType, hes]
    exact congrArg Except.ok (serializeFields_eq hnd htype)
  · rw [serializeAny, hes]
    exact congrArg Except.ok (serializeFields_eq hnd htype)
  · have hkey : hasKey typeKey (("__type__", .str c.name) :: es) = true := by
      simp [hasKey, typeKey]
    rw [deserializeAny, if_neg ?_, if_pos hkey]
    · exact hwith
    · -- the one key of an instance without fields is the type key
      cases es with
      | nil => simp [isRaw, hasKey, rawDictKey]
      | cons kv es => simp [isRaw]
  · exact hwith

theorem Built.survives (hm : m.Sound) {v : PyValue} (h : Built m v) : Survives m v := by
  induction h with
  | none => exact ⟨.none, rfl, rfl⟩
  | bool b => exact ⟨.bool b, rfl, rfl⟩
  | int i => exact ⟨.int i, rfl, rfl⟩
  | float x => exact ⟨.float x, rfl, rfl⟩
  | str s => exact ⟨.str s, rfl, rfl⟩
  | bytes b => exact ⟨.bytes b, rfl, rfl⟩
  | @list xs h ih =>
      obtain ⟨es, hes, hds⟩ := survives_list ih
      refine ⟨.list es, ?_, ?_⟩
      · rw [serializeAny, hes]
        rfl
      · rw [deserializeAny, hds]
        rfl
  | dict keys h ih => exact survives_dict ih
  | tensor dim np =>
      obtain ⟨e, he, hd⟩ := tensor_roundTrip dim np m
      exact ⟨e, by rw [serializeAny, he], hd⟩
  | obj hc names h ih =>
      obtain ⟨e, -, he, hd, -⟩ := survives_obj hm hc names ih
      exact ⟨e, he, hd⟩

/-- A message of a module: an instance of one of its classes. -/
inductive Message (m : Module) : PyValue → Prop
  | mk {c : PyClass} (hc : c ∈ m) {fields : List Item}
      (names : fields.map Prod.fst = c.fields.map Field.name) (h : ∀ kv ∈ fields, Built m kv.2) :
      Message m (.obj c.name fields)

/-- Every message decodes to itself. -/
theorem message_roundTrip : ∀ m ∈ modules, ∀ v, Message m v →
    ∃ e, serializeType v = .ok e ∧ deserializeType m e = .ok v := by
  rintro m hm v ⟨hc, hnames, h⟩
  have hsound := modules_sound m hm
  obtain ⟨e, he, -, -, hd⟩ := survives_obj hsound hc hnames fun kv hkv => (h kv hkv).survives hsound
  exact ⟨e, he, hd⟩

/-- A client's dict that imitates a wrapper around an instance. -/
def hostileKwargs : PyValue :=
  .dict [("__raw_dict__", .dict [("__type__", .str "AbortMsg"), ("uid", .int 1)])]

def hostileMsg : PyValue :=
  .obj "TokenizeMsg"
    [("uid", .int 7), ("text", .str "hi"),
      ("sampling_params", .obj "SamplingParams" [("temperature", .float 0), ("top_k", .int (-1)),
        ("top_p", .float 0), ("ignore_eos", .bool false), ("max_tokens", .int 16),
        ("stop_strs", .list [])]),
      ("chat_template_kwargs", hostileKwargs), ("tools", .none)]

theorem message_roundTrip_hostile :
    ∃ e, serializeType hostileMsg = .ok e ∧ deserializeType tokenizerModule e = .ok hostileMsg := by
  have hparams : Built tokenizerModule (.obj "SamplingParams" [("temperature", .float 0),
      ("top_k", .int (-1)), ("top_p", .float 0), ("ignore_eos", .bool false),
      ("max_tokens", .int 16), ("stop_strs", .list [])]) := by
    refine Built.obj (c := samplingParams) List.mem_cons_self rfl fun kv hkv => ?_
    fin_cases hkv
    · exact .float 0
    · exact .int (-1)
    · exact .float 0
    · exact .bool false
    · exact .int 16
    · exact .list fun x hx => absurd hx List.not_mem_nil
  have hkwargs : Built tokenizerModule hostileKwargs := by
    refine .dict (by decide) fun kv hkv => ?_
    fin_cases hkv
    refine .dict (by decide) fun kv hkv => ?_
    fin_cases hkv
    · exact .str "AbortMsg"
    · exact .int 1
  refine message_roundTrip tokenizerModule List.mem_cons_self hostileMsg
    (.mk (c := ⟨"TokenizeMsg", [required "uid", required "text", required "sampling_params",
      optional "chat_template_kwargs", optional "tools"]⟩) ?_ rfl fun kv hkv => ?_)
  · exact List.mem_cons_of_mem _ (List.mem_cons_of_mem _ (List.mem_cons_of_mem _
      (List.mem_cons_of_mem _ (List.mem_cons_of_mem _ List.mem_cons_self))))
  · fin_cases hkv
    · exact .int 7
    · exact .str "hi"
    · exact hparams
    · exact hkwargs
    · exact .none

end Wire

end FreeToken
