import Stepwise.Proofs.NumberText
import Stepwise.Proofs.Numbers
import Stepwise.Trace.Encoding

/-! A trace that is written as JSON reads back as itself, in one line or over many. Each decoder
inverts its encoder; a trace has to hold finite doubles only, and its numbers those of 64 bits. -/

namespace Stepwise

/-! Maps -/

theorem KeyMap.insertEntry_last {κ α : Type} [Ord κ] [Std.OrientedOrd κ] {k : κ} {v : α}
    {es : List (κ × α)} (h : ∀ e ∈ es, compare e.1 k = .lt) :
    insertEntry k v es = es ++ [(k, v)] := by
  induction es with
  | nil => rfl
  | cons e rest ih =>
    have after : compare k e.1 = .gt := Std.OrientedCmp.gt_of_lt (h e (by simp))
    rw [insertEntry, after]
    simp only
    rw [ih fun x hx => h x (by simp [hx])]
    rfl

/-- The map of the entries of a map is that map. -/
theorem KeyMap.ofList_entries {κ α : Type} [Ord κ] [Std.TransOrd κ] [Std.LawfulEqOrd κ]
    (m : KeyMap κ α) : KeyMap.ofList m.entries = m := by
  have onto (es : List (κ × α)) (start : KeyMap κ α) (h : Ascending (start.entries ++ es)) :
      (es.foldl (fun m e => m.insert e.1 e.2) start).entries = start.entries ++ es := by
    induction es generalizing start with
    | nil => simp
    | cons e rest ih =>
      have last : ∀ x ∈ start.entries, compare x.1 e.1 = .lt := fun x hx =>
        (List.pairwise_append.mp h).2.2 x hx e (by simp)
      have inserted : (start.insert e.1 e.2).entries = start.entries ++ [e] :=
        insertEntry_last last
      rw [List.foldl_cons, ih]
      · simp [inserted]
      · simpa [inserted] using h
  apply KeyMap.ext
  exact onto m.entries empty m.ascending

namespace Json

/-! Fields by their names -/

@[simp] theorem stringKey?_escape (s : String) : stringKey? (escape s.toList) = some s := by
  simp [stringKey?, unescape?_escape]

@[simp] theorem string?_ofString (s : String) : (ofString s).string? = some s := by
  simp [ofString, string?, unescape?_escape]

theorem mapM_eq_some {α β : Type} {f : α → Option β} {g : β → α} {xs : List β}
    (h : ∀ x ∈ xs, f (g x) = some x) : (xs.map g).mapM f = some xs := by
  induction xs with
  | nil => rfl
  | cons x xs ih =>
    rw [List.map_cons, List.mapM_cons, h x (by simp), ih fun y hy => h y (by simp [hy])]
    rfl

theorem plainFields?_escape (fields : List (String × Json)) :
    plainFields? (fields.map fun f => (escape f.1.toList, f.2)) = some fields := by
  apply mapM_eq_some
  intro f _
  simp [stringKey?_escape]

/-- Where no key stands twice, the field of a name is the one found under it. -/
theorem uniqueField?_eq_lookup {fields : List (String × Json)} (h : (fields.map (·.1)).Nodup)
    (name : String) : uniqueField? fields name = some (fields.lookup name) := by
  induction fields with
  | nil => rfl
  | cons f rest ih =>
    obtain ⟨key, j⟩ := f
    obtain ⟨fresh, others⟩ := List.nodup_cons.mp h
    by_cases same : key = name
    · have none : rest.filter (·.1 == name) = [] := by
        rw [List.filter_eq_nil_iff]
        intro g hg eq
        exact fresh (List.mem_map.mpr ⟨g, hg, (eq_of_beq eq).trans same.symm⟩)
      simp [uniqueField?, same, none]
    · have found := ih others
      rw [uniqueField?] at found
      rw [uniqueField?, List.filter_cons_of_neg (by simpa using same), found, List.lookup_cons,
        beq_eq_false_iff_ne.mpr (Ne.symm same)]

theorem namedFields?_eq_lookup {fields : List (String × Json)} (h : (fields.map (·.1)).Nodup)
    (names : List String) : namedFields? names fields = some (names.map (fields.lookup ·)) := by
  induction names with
  | nil => rfl
  | cons name names ih =>
    rw [namedFields?] at ih
    rw [namedFields?, List.mapM_cons, uniqueField?_eq_lookup h, ih]
    rfl

theorem record?_ofFields {fields : List (String × Json)} (h : (fields.map (·.1)).Nodup)
    (names : List String) (least : Nat) :
    (ofFields fields).record? names least = some (names.map (fields.lookup ·)) := by
  rw [ofFields, record?, plainFields?_escape]
  exact namedFields?_eq_lookup h names

/-! Numbers, lists and maps -/

theorem natLexeme?_toDigits {bound n : Nat} (h : n < bound) :
    natLexeme? bound (Nat.toDigits 10 n) = some n := by
  have digits := Decimal.isDigits_toDigits n
  rw [natLexeme?, if_pos]
  · simp [Decimal.digitsValue_toDigits, h]
  · simp [digits.nonempty]
    exact digits.digits

theorem nat?_ofNat {n : Nat} (h : n < UInt64.size) : (ofNat n).nat? = some n :=
  natLexeme?_toDigits h

@[simp] theorem addressOfJson?_ofAddress (a : Address) : addressOfJson? (ofAddress a) = some a := by
  rw [addressOfJson?, ofAddress, nat?_ofNat a.toNat_lt]
  simp

theorem int?_ofInt {bound : Nat} {n : Int} (low : -bound ≤ n) (high : n < bound) :
    (ofInt n).int? bound = some n := by
  have magnitude : (natLexeme? (bound + 1) (Nat.toDigits 10 n.natAbs)) = some n.natAbs :=
    natLexeme?_toDigits (by omega)
  unfold ofInt
  split
  next neg =>
    have nonzero : n.natAbs ≠ 0 := by omega
    rw [List.singleton_append, int?, magnitude, Option.filter_some, if_pos (by simpa using nonzero)]
    exact congrArg some (show -(n.natAbs : Int) = n by omega)
  next nonneg =>
    rw [List.nil_append, int?]
    · rw [natLexeme?_toDigits (by omega)]
      exact congrArg some (show (n.natAbs : Int) = n by omega)
    · intro ds text
      have minus := (Decimal.isDigits_toDigits n.natAbs).digits '-'
      rw [text] at minus
      exact absurd (minus (by simp)) (by decide)

@[simp] theorem name?_ofString {α : Type} (table : List (String × α)) (s : String) :
    name? table (ofString s) = table.lookup s := by
  rw [ofString, name?, plainName?, ← ofString, string?_ofString]
  · rfl
  · intro key h
    cases h

@[simp] theorem looseName?_ofString {α : Type} (table : List (String × α)) (s : String) :
    looseName? table (ofString s) = table.lookup s := by
  rw [ofString, looseName?, ← ofString, name?_ofString]
  intro key h
  cases h

theorem ofString_ne_null (s : String) : ofString s ≠ .null := by
  intro h
  cases h

theorem ofNat_ne_null (n : Nat) : ofNat n ≠ .null := by
  intro h
  cases h

theorem optional_some {α : Type} (f : Json → Option α) {j : Json} (h : j ≠ .null) :
    Json.optional f (some j) = (f j).map some := by
  rw [Json.optional]
  rintro ⟨⟩
  exact h rfl

theorem list?_map {α : Type} {encode : α → Json} {decode : Json → Option α} {xs : List α}
    (h : ∀ x ∈ xs, decode (encode x) = some x) :
    (Json.arr (xs.map encode)).list? decode = some xs :=
  mapM_eq_some h

theorem map?_toJson {κ α : Type} [Ord κ] [Std.TransOrd κ] [Std.LawfulEqOrd κ] {m : KeyMap κ α}
    {key : κ → List Char} {key? : List Char → Option κ} {encode : α → Json}
    {decode : Json → Option α} (hkey : ∀ k, key? (key k) = some k)
    (h : ∀ e ∈ m.entries, decode (encode e.2) = some e.2) :
    (m.toJson key encode).map? key? decode = some m := by
  have entries : (m.entries.map fun e => (key e.1, encode e.2)).mapM
      (fun e => do return (← key? e.1, ← decode e.2)) = some m.entries := by
    apply mapM_eq_some
    intro e he
    simp [hkey, h e he]
  rw [KeyMap.toJson, map?, entries]
  exact congrArg some m.ofList_entries

theorem float?_ofFloat {x : Float} {negative : Bool} {m : Nat} {e : Int}
    (h : Decimal.Binary64.ofFloat x = .finite negative m e) : (ofFloat x).float? = some x := by
  rw [ofFloat, h]
  exact (Decimal.finiteText_reads h).2

end Json

/-! Decoders invert encoders -/

/-- Whether a value is a number that JSON can write, if it is a floating one. -/
def Value.isFinite : Value → Bool
  | .float x => match Decimal.Binary64.ofFloat x with
    | .finite .. => true
    | _ => false
  | _ => true

open Json (required record?_ofFields nat?_ofNat int?_ofInt float?_ofFloat list?_map
  map?_toJson)

theorem Value.ofJson?_ofFields {fields : List (String × Json)} (h : (fields.map (·.1)).Nodup) :
    ofJson? (.ofFields fields) =
      (required (Json.name? contents) (fields.lookup "kind")).bind fun read =>
        read (fields.lookup "value") := by
  rw [Json.ofFields, ofJson?, Json.plainFields?_escape]
  simp [Json.uniqueField?_eq_lookup h]

theorem Value.ofJson?_toJson {v : Value} (h : v.isFinite = true) : ofJson? v.toJson = some v := by
  cases v with
  | int n =>
    have read : (Json.ofInt n.toInt).int? 2147483648 = some n.toInt :=
      int?_ofInt n.le_toInt n.toInt_lt
    rw [toJson, ofJson?_ofFields (by simp)]
    simp [List.lookup_cons, contents, required, read]
  | float x =>
    have read : (Json.ofFloat x).float? = some x := by
      unfold isFinite at h
      simp only at h
      split at h
      next finite => exact float?_ofFloat finite
      next => cases h
    rw [toJson, ofJson?_ofFields (by simp)]
    simp [List.lookup_cons, contents, required, read]
  | char c =>
    have read : (Json.ofInt c.toInt).int? 128 = some c.toInt := int?_ofInt c.le_toInt c.toInt_lt
    rw [toJson, ofJson?_ofFields (by simp)]
    simp [List.lookup_cons, contents, required, read]
  | address a =>
    rw [toJson, ofJson?_ofFields (by simp)]
    simp [List.lookup_cons, contents, required, nat?_ofNat a.toNat_lt]
  | undefined =>
    rw [toJson, ofJson?_ofFields (by simp)]
    rfl

theorem Value.toJson_ne_null (v : Value) : v.toJson ≠ .null := by
  intro h
  cases v <;> cases h

@[simp] theorem Scope.ofJson?_name (scope : Scope) :
    ofJson? (.ofString scope.name) = some scope := by
  rw [ofJson?, Json.name?_ofString]
  cases scope <;> rfl

theorem VariableView.ofJson?_toJson {v : VariableView} (h : v.value.isFinite = true) :
    ofJson? v.toJson = some v := by
  rw [ofJson?, toJson, record?_ofFields (by simp)]
  simp [List.lookup_cons, required, Value.ofJson?_toJson h]

theorem ElementView.ofJson?_toJson {e : ElementView} (h : e.value.isFinite = true)
    (fits : e.index < UInt64.size) : ofJson? e.toJson = some e := by
  rw [ofJson?, toJson, record?_ofFields (by simp)]
  simp [List.lookup_cons, required, Value.ofJson?_toJson h, nat?_ofNat fits]

theorem ArrayView.ofJson?_toJson {a : ArrayView} (h : ∀ e ∈ a.elements, e.value.isFinite = true)
    (fits : ∀ e ∈ a.elements, e.index < UInt64.size) : ofJson? a.toJson = some a := by
  have elements := list?_map fun e he => ElementView.ofJson?_toJson (h e he) (fits e he)
  rw [ofJson?, toJson, record?_ofFields (by simp)]
  simp [List.lookup_cons, required, elements]

theorem PointerView.ofJson?_toJson (p : PointerView) : ofJson? p.toJson = some p := by
  have preview : Json.optional Json.string? (some ((p.preview.map Json.ofString).getD .null)) =
      some p.preview := by
    cases p.preview with
    | none => rfl
    | some s =>
      rw [Option.map_some, Option.getD_some, Json.optional_some _ (Json.ofString_ne_null s),
        Json.string?_ofString, Option.map_some]
  rw [ofJson?, toJson, record?_ofFields (by simp)]
  simp [List.lookup_cons, required, preview]

theorem FieldView.ofJson?_toJson {f : FieldView} (h : f.value.isFinite = true) :
    ofJson? f.toJson = some f := by
  rw [ofJson?, toJson, record?_ofFields (by simp)]
  simp [List.lookup_cons, required, Value.ofJson?_toJson h]

theorem NodeView.ofJson?_toJson {n : NodeView} (h : ∀ f ∈ n.fields, f.value.isFinite = true) :
    ofJson? n.toJson = some n := by
  have fields := list?_map fun f hf => FieldView.ofJson?_toJson (h f hf)
  have links : (n.links.toJson Json.stringKey Json.ofAddress).map? Json.stringKey? addressOfJson? =
      some n.links := map?_toJson Json.stringKey?_escape fun _ _ => Json.addressOfJson?_ofAddress _
  rw [ofJson?, toJson, record?_ofFields (by simp)]
  simp [List.lookup_cons, required, fields, links]

theorem Call.ofJson?_toJson {c : Call} (call : c.callLine < UInt64.size)
    (entry : c.entryLine < UInt64.size) : ofJson? c.toJson = some c := by
  rw [ofJson?, toJson, record?_ofFields (by simp)]
  simp [List.lookup_cons, required, nat?_ofNat call, nat?_ofNat entry]

/-! Steps -/

namespace Step

def values (s : Step) : List Value :=
  s.scalars.entries.map (·.2.value) ++ s.arrays.entries.flatMap (·.2.elements.map (·.value)) ++
    s.heapNodes.entries.flatMap (·.2.fields.map (·.value)) ++ s.returnValue.toList

/-- All numbers that a step shows beside its values and addresses. -/
def numbers (s : Step) : List Nat :=
  [s.ordinal, s.line] ++ s.arrays.entries.flatMap (·.2.elements.map (·.index)) ++
    s.callStack.flatMap fun c => [c.callLine, c.entryLine]

end Step

theorem addressKey?_toDigits (a : Address) : addressKey? (Nat.toDigits 10 a.toNat) = some a := by
  have read : (Json.num (Nat.toDigits 10 a.toNat)).nat? = some a.toNat := nat?_ofNat a.toNat_lt
  have lead := (Decimal.isWhole_toDigits a.toNat).lead
  rw [addressKey?, read, Option.filter_some, if_pos]
  · simp
  · by_cases zero : (Nat.toDigits 10 a.toNat).head? = some '0'
    · simp [lead zero]
    · simp [zero]

namespace Step

theorem mem_values {s : Step} {v : Value} :
    v ∈ s.values ↔ (∃ e ∈ s.scalars.entries, e.2.value = v) ∨
      (∃ e ∈ s.arrays.entries, ∃ x ∈ e.2.elements, x.value = v) ∨
      (∃ e ∈ s.heapNodes.entries, ∃ f ∈ e.2.fields, f.value = v) ∨ s.returnValue = some v := by
  simp [values]

theorem mem_numbers {s : Step} {n : Nat} :
    n ∈ s.numbers ↔ n = s.ordinal ∨ n = s.line ∨
      (∃ e ∈ s.arrays.entries, ∃ x ∈ e.2.elements, x.index = n) ∨
      ∃ c ∈ s.callStack, n = c.callLine ∨ n = c.entryLine := by
  simp [numbers]

/-- The fields of a step in the order of their names. -/
theorem record?_toJson (s : Step) :
    s.toJson.record? fieldNames 10 = some [some (.ofNat s.ordinal), some (.ofNat s.line),
      some (.ofString s.code), some (.ofString s.description),
      some (s.scalars.toJson Json.stringKey VariableView.toJson),
      some (s.arrays.toJson Json.stringKey ArrayView.toJson),
      some (s.pointers.toJson Json.stringKey PointerView.toJson),
      some (s.heapNodes.toJson (fun a => Nat.toDigits 10 a.toNat) NodeView.toJson),
      some (.ofString s.console), some (.arr (s.callStack.map Call.toJson)),
      s.returnValue.map Value.toJson] := by
  cases returned : s.returnValue with
  | none =>
    rw [toJson, returned, record?_ofFields (by simp)]
    rfl
  | some v =>
    rw [toJson, returned, record?_ofFields (by simp)]
    rfl

theorem ofJson?_toJson {s : Step} (h : ∀ v ∈ s.values, v.isFinite = true)
    (fits : ∀ n ∈ s.numbers, n < UInt64.size) : ofJson? s.toJson = some s := by
  have scalars : (s.scalars.toJson Json.stringKey VariableView.toJson).map? Json.stringKey?
      VariableView.ofJson? = some s.scalars := by
    apply map?_toJson Json.stringKey?_escape
    intro e he
    exact VariableView.ofJson?_toJson (h _ (mem_values.mpr (.inl ⟨e, he, rfl⟩)))
  have arrays : (s.arrays.toJson Json.stringKey ArrayView.toJson).map? Json.stringKey?
      ArrayView.ofJson? = some s.arrays := by
    apply map?_toJson Json.stringKey?_escape
    intro e he
    apply ArrayView.ofJson?_toJson
    · exact fun x hx => h _ (mem_values.mpr (.inr (.inl ⟨e, he, x, hx, rfl⟩)))
    · exact fun x hx => fits _ (mem_numbers.mpr (.inr (.inr (.inl ⟨e, he, x, hx, rfl⟩))))
  have pointers : (s.pointers.toJson Json.stringKey PointerView.toJson).map? Json.stringKey?
      PointerView.ofJson? = some s.pointers := by
    apply map?_toJson Json.stringKey?_escape
    exact fun e _ => PointerView.ofJson?_toJson e.2
  have heapNodes : (s.heapNodes.toJson (fun a => Nat.toDigits 10 a.toNat) NodeView.toJson).map?
      addressKey? NodeView.ofJson? = some s.heapNodes := by
    apply map?_toJson addressKey?_toDigits
    intro e he
    apply NodeView.ofJson?_toJson
    exact fun f hf => h _ (mem_values.mpr (.inr (.inr (.inl ⟨e, he, f, hf, rfl⟩))))
  have callStack : (Json.arr (s.callStack.map Call.toJson)).list? Call.ofJson? =
      some s.callStack := by
    apply list?_map
    intro c hc
    apply Call.ofJson?_toJson
    · exact fits _ (mem_numbers.mpr (.inr (.inr (.inr ⟨c, hc, .inl rfl⟩))))
    · exact fits _ (mem_numbers.mpr (.inr (.inr (.inr ⟨c, hc, .inr rfl⟩))))
  have ordinal := nat?_ofNat (fits s.ordinal (mem_numbers.mpr (.inl rfl)))
  have line := nat?_ofNat (fits s.line (mem_numbers.mpr (.inr (.inl rfl))))
  have returnValue : Json.optional Value.ofJson? (s.returnValue.map Value.toJson) =
      some s.returnValue := by
    cases returned : s.returnValue with
    | none => rfl
    | some v =>
      have value := Value.ofJson?_toJson (h v (mem_values.mpr (.inr (.inr (.inr returned)))))
      rw [Option.map_some, Json.optional_some _ v.toJson_ne_null, value, Option.map_some]
  rw [ofJson?, record?_toJson]
  simp only [required, Option.bind_eq_bind, Option.bind_some, Json.string?_ofString, scalars,
    arrays, pointers, heapNodes, callStack, ordinal, line, returnValue]
  rfl

end Step

/-! The status -/

def Status.numbers : Status → List Nat
  | .parseError line column _ => [line, column]
  | .runtimeError _ _ stepIndex line column => stepIndex :: (line.toList ++ column.toList)
  | .completed | .limitExceeded .. => []

@[simp] theorem Fault.Kind.ofJson?_name (k : Fault.Kind) : ofJson? (.ofString k.name) = some k := by
  rw [ofJson?, Json.looseName?_ofString]
  cases k <;> rfl

@[simp] theorem Excess.Kind.ofJson?_name (k : Excess.Kind) :
    ofJson? (.ofString k.name) = some k := by
  rw [ofJson?, Json.looseName?_ofString]
  cases k <;> rfl

@[simp] theorem Json.isPlain_ofString (depth : Nat) (s : String) :
    (Json.ofString s).isPlain depth = true := by
  simp [Json.ofString, Json.isPlain, Json.unescape?_escape]

theorem Json.isPlain_ofNat (depth : Nat) {n : Nat} (h : n < UInt64.size) :
    (Json.ofNat n).isPlain depth = true := by
  simp [Json.ofNat, Json.isPlain, Decimal.lexemeFloat?_toDigits h]

namespace Status

/-- A status is read from its name and, beside it, fields that can all be read. -/
theorem ofJson?_ofFields {name : String} {fields : List (String × Json)}
    (h : ("status" :: fields.map (·.1)).Nodup)
    (plain : ∀ f ∈ fields, f.2.isPlain nesting = true) :
    ofJson? (.ofFields (("status", .ofString name) :: fields)) =
      ofFields? name fun names => some (names.map (fields.lookup ·)) := by
  obtain ⟨fresh, others⟩ := List.nodup_cons.mp h
  have named : Json.uniqueField? (("status", Json.ofString name) :: fields) "status" =
      some (some (.ofString name)) := by
    rw [Json.uniqueField?_eq_lookup (by simpa using h), List.lookup_cons_self]
  have rest : (("status", Json.ofString name) :: fields).filter (·.1 != "status") = fields := by
    rw [List.filter_cons_of_neg (by simp), List.filter_eq_self]
    intro f hf
    simp only [bne_iff_ne]
    intro same
    exact fresh (List.mem_map.mpr ⟨f, hf, same⟩)
  have all : fields.all (·.2.isPlain nesting) = true := List.all_eq_true.mpr plain
  rw [Json.ofFields, ofJson?, Json.plainFields?_escape]
  simp [named, rest, all, required, Json.namedFields?_eq_lookup others]

theorem optional_nat? {n : Option Nat} (h : ∀ k ∈ n.toList, k < UInt64.size) :
    Json.optional Json.nat? (some ((n.map Json.ofNat).getD .null)) = some n := by
  cases n with
  | none => rfl
  | some k =>
    rw [Option.map_some, Option.getD_some, Json.optional_some _ (Json.ofNat_ne_null k),
      nat?_ofNat (h k (by simp)), Option.map_some]

theorem isPlain_optional {n : Option Nat} (h : ∀ k ∈ n.toList, k < UInt64.size) :
    ((n.map Json.ofNat).getD .null).isPlain nesting = true := by
  cases n with
  | none => rfl
  | some k => exact Json.isPlain_ofNat nesting (h k (by simp))

theorem ofJson?_toJson {s : Status} (h : ∀ n ∈ s.numbers, n < UInt64.size) :
    ofJson? s.toJson = some s := by
  cases s with
  | completed =>
    rw [toJson, ofJson?_ofFields (by simp) (by simp)]
    rfl
  | parseError line column message =>
    have line_lt := h line (by simp [numbers])
    have column_lt := h column (by simp [numbers])
    rw [toJson, ofJson?_ofFields (by simp) (by
      simp [Json.isPlain_ofNat nesting line_lt, Json.isPlain_ofNat nesting column_lt])]
    simp [ofFields?, List.lookup_cons, required, nat?_ofNat line_lt, nat?_ofNat column_lt]
  | runtimeError kind message stepIndex line column =>
    have index_lt := h stepIndex (by simp [numbers])
    have line_lt : ∀ k ∈ line.toList, k < UInt64.size := by
      intro k hk
      apply h k
      rw [numbers, List.mem_cons, List.mem_append]
      exact .inr (.inl hk)
    have column_lt : ∀ k ∈ column.toList, k < UInt64.size := by
      intro k hk
      apply h k
      rw [numbers, List.mem_cons, List.mem_append]
      exact .inr (.inr hk)
    rw [toJson, ofJson?_ofFields (by simp) (by
      simp [Json.isPlain_ofNat nesting index_lt, isPlain_optional line_lt,
        isPlain_optional column_lt])]
    simp [ofFields?, List.lookup_cons, required, nat?_ofNat index_lt, optional_nat? line_lt,
      optional_nat? column_lt]
  | limitExceeded kind message =>
    rw [toJson, ofJson?_ofFields (by simp) (by simp)]
    simp [ofFields?, List.lookup_cons, required]

end Status

/-! Everything that is written is spelled as JSON spells it -/

namespace Json

theorem spelled_ofString (s : String) : Spelled (ofString s) := .str s.toList

theorem spelled_ofNat (n : Nat) : Spelled (ofNat n) := by
  have number := IsNumber.unsigned (Decimal.isWhole_toDigits n) .none .none
  rw [List.append_nil, List.append_nil] at number
  exact .num number

theorem spelled_ofAddress (a : Address) : Spelled (ofAddress a) := spelled_ofNat a.toNat

theorem spelled_ofInt (n : Int) : Spelled (ofInt n) := by
  have whole := Decimal.isWhole_toDigits n.natAbs
  unfold ofInt
  split
  next =>
    have number := IsNumber.negative whole .none .none
    rw [List.append_nil, List.append_nil] at number
    exact .num number
  next => exact spelled_ofNat n.natAbs

theorem spelled_ofFloat (x : Float) : Spelled (ofFloat x) := by
  unfold ofFloat
  split
  next h => exact .num (Decimal.finiteText_reads h).1
  next => exact .null

theorem spelled_optional {α : Type} {encode : α → Json} (h : ∀ x, Spelled (encode x))
    (o : Option α) : Spelled ((o.map encode).getD .null) := by
  cases o with
  | none => exact .null
  | some x => exact h x

theorem spelled_ofFields {fields : List (String × Json)} (h : ∀ f ∈ fields, Spelled f.2) :
    Spelled (ofFields fields) := by
  apply Spelled.obj
  · intro f hf
    obtain ⟨g, -, rfl⟩ := List.mem_map.mp hf
    exact ⟨g.1.toList, rfl⟩
  · intro f hf
    obtain ⟨g, hg, rfl⟩ := List.mem_map.mp hf
    exact h g hg

theorem spelled_arr {α : Type} {encode : α → Json} (h : ∀ x, Spelled (encode x)) (xs : List α) :
    Spelled (.arr (xs.map encode)) := by
  apply Spelled.arr
  intro j hj
  obtain ⟨x, -, rfl⟩ := List.mem_map.mp hj
  exact h x

theorem spelled_map {κ α : Type} [Ord κ] {key : κ → List Char} {encode : α → Json}
    (hkey : ∀ k, ∃ cs, key k = escape cs) (h : ∀ x, Spelled (encode x)) (m : KeyMap κ α) :
    Spelled (m.toJson key encode) := by
  apply Spelled.obj
  · intro f hf
    obtain ⟨e, -, rfl⟩ := List.mem_map.mp hf
    exact hkey e.1
  · intro f hf
    obtain ⟨e, -, rfl⟩ := List.mem_map.mp hf
    exact h e.2

theorem escapeChar_digit {c : Char} (digit : Decimal.isDigit c = true) : escapeChar c = [c] := by
  obtain ⟨x, -, short⟩ | ⟨-, control⟩ | ⟨text, -⟩ := escapeChar_cases c
  · unfold shortEscape? at short
    split at short
    case h_9 => cases short
    all_goals
      cases short
      exact absurd digit (by decide)
  · simp only [Decimal.isDigit, Bool.and_eq_true, decide_eq_true_eq, Char.le_def,
      UInt32.le_iff_toNat_le] at digit
    have zero : '0'.val.toNat = 48 := rfl
    have value : c.toNat = c.val.toNat := rfl
    omega
  · exact text

/-- Digits are never escaped. -/
theorem escape_toDigits (n : Nat) : escape (Nat.toDigits 10 n) = Nat.toDigits 10 n := by
  have digits := (Decimal.isDigits_toDigits n).digits
  generalize Nat.toDigits 10 n = ds at *
  induction ds with
  | nil => rfl
  | cons c ds ih =>
    have same : escapeChar c = [c] := escapeChar_digit (digits c (by simp))
    rw [escape] at ih
    rw [escape, List.flatMap_cons, same, ih fun d hd => digits d (by simp [hd])]
    rfl

end Json

open Json (spelled_ofString spelled_ofNat spelled_ofAddress spelled_ofFields spelled_arr
  spelled_map)

theorem Value.spelled (v : Value) : Json.Spelled v.toJson := by
  cases v with
  | int n => exact spelled_ofFields (by simp [spelled_ofString, Json.spelled_ofInt])
  | float x => exact spelled_ofFields (by simp [spelled_ofString, Json.spelled_ofFloat])
  | char c => exact spelled_ofFields (by simp [spelled_ofString, Json.spelled_ofInt])
  | address a => exact spelled_ofFields (by simp [spelled_ofString, spelled_ofNat])
  | undefined => exact spelled_ofFields (by simp [spelled_ofString])

theorem stringKey_escape (s : String) : ∃ cs, Json.stringKey s = Json.escape cs := ⟨s.toList, rfl⟩

theorem addressKey_escape (a : Address) :
    ∃ cs, Nat.toDigits 10 a.toNat = Json.escape cs :=
  ⟨_, (Json.escape_toDigits a.toNat).symm⟩

theorem VariableView.spelled (v : VariableView) : Json.Spelled v.toJson :=
  spelled_ofFields (by simp [spelled_ofString, spelled_ofAddress, Value.spelled])

theorem ElementView.spelled (e : ElementView) : Json.Spelled e.toJson :=
  spelled_ofFields (by simp [spelled_ofNat, spelled_ofAddress, Value.spelled])

theorem ArrayView.spelled (a : ArrayView) : Json.Spelled a.toJson :=
  spelled_ofFields (by
    simp [spelled_ofString, spelled_ofAddress, spelled_arr ElementView.spelled])

theorem PointerView.spelled (p : PointerView) : Json.Spelled p.toJson :=
  spelled_ofFields (by
    simp [spelled_ofString, spelled_ofAddress, Json.spelled_optional spelled_ofString])

theorem FieldView.spelled (f : FieldView) : Json.Spelled f.toJson :=
  spelled_ofFields (by simp [spelled_ofString, Value.spelled])

theorem NodeView.spelled (n : NodeView) : Json.Spelled n.toJson := by
  have links := spelled_map stringKey_escape spelled_ofAddress n.links
  exact spelled_ofFields (by simp [spelled_ofString, spelled_arr FieldView.spelled, links])

theorem Call.spelled (c : Call) : Json.Spelled c.toJson :=
  spelled_ofFields (by simp [spelled_ofString, spelled_ofNat])

theorem Step.spelled (s : Step) : Json.Spelled s.toJson := by
  apply spelled_ofFields
  have scalars := spelled_map stringKey_escape VariableView.spelled s.scalars
  have arrays := spelled_map stringKey_escape ArrayView.spelled s.arrays
  have pointers := spelled_map stringKey_escape PointerView.spelled s.pointers
  have heapNodes := spelled_map addressKey_escape NodeView.spelled s.heapNodes
  have calls := spelled_arr Call.spelled s.callStack
  cases s.returnValue with
  | none =>
    simp [spelled_ofString, spelled_ofNat, scalars, arrays, pointers, heapNodes, calls]
  | some v =>
    simp [spelled_ofString, spelled_ofNat, scalars, arrays, pointers, heapNodes, calls, v.spelled]

theorem Status.spelled (s : Status) : Json.Spelled s.toJson := by
  cases s with
  | completed => exact spelled_ofFields (by simp [spelled_ofString])
  | parseError line column message =>
    exact spelled_ofFields (by simp [spelled_ofString, spelled_ofNat])
  | runtimeError kind message stepIndex line column =>
    exact spelled_ofFields (by
      simp [spelled_ofString, spelled_ofNat, Json.spelled_optional spelled_ofNat])
  | limitExceeded kind message => exact spelled_ofFields (by simp [spelled_ofString])

/-! Traces -/

namespace Trace

theorem spelled (t : Trace) : Json.Spelled t.toJson :=
  spelled_ofFields (by simp [spelled_arr Step.spelled, Status.spelled])

/-- Every floating value that a trace shows is a finite number. -/
def Finite (t : Trace) : Prop := ∀ s ∈ t.steps, ∀ v ∈ s.values, v.isFinite = true

/-- Every number that a trace shows is one of 64 bits. -/
def Sized (t : Trace) : Prop :=
  (∀ s ∈ t.steps, ∀ n ∈ s.numbers, n < UInt64.size) ∧ ∀ n ∈ t.status.numbers, n < UInt64.size

instance (t : Trace) : Decidable t.Finite :=
  inferInstanceAs (Decidable (∀ s ∈ t.steps, ∀ v ∈ s.values, v.isFinite = true))

instance (t : Trace) : Decidable t.Sized :=
  inferInstanceAs (Decidable ((∀ s ∈ t.steps, ∀ n ∈ s.numbers, n < UInt64.size) ∧
    ∀ n ∈ t.status.numbers, n < UInt64.size))

theorem ofJson?_toJson {t : Trace} (finite : t.Finite) (sized : t.Sized) :
    ofJson? t.toJson = some t := by
  have steps := list?_map fun s hs => Step.ofJson?_toJson (finite s hs) (sized.1 s hs)
  rw [ofJson?, toJson, record?_ofFields (by simp)]
  simp [List.lookup_cons, required, steps, Status.ofJson?_toJson sized.2]

/-- The numbers that the steps of a run show are those of positions in the text, of steps and of elements that
the limits allow for. -/
theorem run_numbers_lt {source input : String} {limits : Limits} {cancelled : Bool} {p : Program}
    (accepted : Program.parse source = .ok p) (length : source.length + 1 < UInt64.size)
    (steps : limits.steps < UInt64.size) (memory : limits.memory < UInt64.size) :
    ∀ x ∈ (p.trace (.ofProgram p source limits cancelled) input).steps, ∀ k ∈ x.numbers, k < UInt64.size := by
  intro x hx k hk
  have stands := Program.within_ofSource (Program.ofSource_of_parse accepted)
  have wellFormed := p.wellFormed_trace input
    (Nat.lt_succ_self (Setting.ofProgram p source limits cancelled).limits.steps)
  obtain ⟨i, numbered⟩ := List.mem_iff_getElem?.mp hx
  obtain ⟨moment, recorded, rfl⟩ := List.mem_map.mp hx
  obtain ⟨calls, size⟩ := (Program.run_confined accepted limits cancelled input).1 moment recorded
  rcases Step.mem_numbers.mp hk with rfl | rfl | ⟨e, he, y, hy, rfl⟩ | ⟨c, hc, hk⟩
  · have inside := (List.getElem?_eq_some_iff.mp numbered).1
    rw [wellFormed.ordinal i _ numbered]
    exact Nat.lt_of_lt_of_le inside (Nat.le_trans wellFormed.length (Nat.le_of_lt steps))
  · obtain ⟨q, hq, line⟩ := p.run_sites source input limits cancelled moment recorded
    exact Nat.lt_of_le_of_lt (Nat.le_trans (Nat.le_of_eq line) (stands.sites q hq).line) length
  · have index := moment.env.index_lt he hy
    have elements := Step.length_elements_le (x := moment.step (.ofProgram p source limits cancelled)) he
    omega
  · obtain ⟨f, hf, rfl⟩ := List.mem_map.mp (List.mem_reverse.mp hc)
    have lines := calls f hf
    rcases hk with rfl | rfl <;> omega

/-- A trace shows numbers of 64 bits only, if the text has that many characters and the limits are such. -/
theorem sized_traceSource {source input : String} {limits : Limits} {cancelled : Bool}
    (length : source.length + 1 < UInt64.size) (steps : limits.steps < UInt64.size)
    (memory : limits.memory < UInt64.size) : (traceSource source input limits cancelled).Sized := by
  have near {q : Position} (h : q.Within (source.length + 1)) :
      q.line < UInt64.size ∧ q.column < UInt64.size :=
    ⟨Nat.lt_of_le_of_lt h.line length, Nat.lt_of_le_of_lt h.column length⟩
  unfold traceSource
  cases accepted : Program.parse source with
  | error e =>
    obtain ⟨line, column⟩ := near (Program.parse_error_within accepted)
    exact ⟨nofun, by simp [ofParseError, Status.numbers, line, column]⟩
  | ok p =>
    refine ⟨run_numbers_lt accepted length steps memory, ?_⟩
    have count := p.length_trace_le (s := .ofProgram p source limits cancelled) input (Nat.lt_succ_self _)
    have halted := (Program.run_confined accepted limits cancelled input).2
    show ∀ k ∈ (Trace.finish _ (p.run _ input).2).status.numbers, _
    cases outcome : (p.run (.ofProgram p source limits cancelled) input).2 with
    | ok u => exact List.forall_mem_nil _
    | error h =>
      cases h with
      | fault f =>
        obtain ⟨line, column⟩ := near (halted _ outcome)
        have index := Nat.lt_of_le_of_lt count steps
        simp only [finish, Halt.status, Status.numbers, Option.toList_some, List.cons_append, List.nil_append,
          List.forall_mem_cons]
        exact ⟨index, line, column, List.forall_mem_nil _⟩
      | _ => exact List.forall_mem_nil _

/-- A trace that is written reads back as itself, if its floating values are finite and its numbers have 64 bits.
The latter is so for every trace of a text that has that many characters, under limits of 64 bits. -/
theorem text_reads_back :
    (∀ t : Trace, t.Finite → t.Sized → ofText? t.text = some t ∧ ofText? t.prettyText = some t) ∧
    ∀ (source input : String) (limits : Limits) (cancelled : Bool), source.length + 1 < UInt64.size →
      limits.steps < UInt64.size → limits.memory < UInt64.size →
      let t := traceSource source input limits cancelled
      t.Finite → ofText? t.text = some t ∧ ofText? t.prettyText = some t := by
  have reads (t : Trace) (finite : t.Finite) (sized : t.Sized) :
      ofText? t.text = some t ∧ ofText? t.prettyText = some t := by
    have decoded := ofJson?_toJson finite sized
    constructor
    · rw [ofText?, text, t.spelled.ofText?_compact, Option.bind_some, decoded]
    · rw [ofText?, prettyText, t.spelled.ofText?_pretty, Option.bind_some, decoded]
  exact ⟨reads, fun source input limits cancelled length steps memory finite =>
    reads _ finite (sized_traceSource length steps memory)⟩

/-- A trace that no run has, and a run that keeps a double on the heap and ends with a fault. -/
theorem text_reads_back_node :
    let source := "struct N \x7b double w; \x7d; int main() \x7b struct N *p =
      malloc(sizeof(struct N)); p->w = -0.1; return 1 / 0; \x7d"
    let made : Trace := ⟨[], .runtimeError .divisionByZero "\t\"" 7 none (some 3)⟩
    let traced := traceSource source "" ⟨100, 10, 100000⟩ false
    (made.Finite ∧ made.Sized ∧ ofText? made.text = some made ∧ ofText? made.prettyText = some made) ∧
    traced.steps.length = 3 ∧ traced.isCompleted = false ∧ traced.Finite ∧
      ofText? traced.text = some traced ∧ ofText? traced.prettyText = some traced := by
  intro source made traced
  have facts : traced.steps.length = 3 ∧ traced.isCompleted = false ∧ traced.Finite := by decide +kernel
  obtain ⟨count, ended, finite⟩ := facts
  have sized : made.Sized := by decide
  refine ⟨⟨nofun, sized, text_reads_back.1 made nofun sized⟩, count, ended, finite, ?_⟩
  exact text_reads_back.2 source "" ⟨100, 10, 100000⟩ false (by decide +kernel) (by decide) (by decide) finite

end Trace

end Stepwise
