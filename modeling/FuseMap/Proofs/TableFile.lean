import FuseMap.Proofs.JsonIntegers
import FuseMap.Proofs.JsonText
import FuseMap.Proofs.WellFormed

/-! # Table files

The text that `TruthTable.save` writes is read by `TruthTable.load` as the tables that were saved,
provided they are complete (`load_save`). The other way round, tables that were read from a JSON
value give back that value without the fields that are not looked at
(`listToJson_of_listOfJson`).
-/

namespace FuseMap

theorem Text.unifyNewlines_eq_self {cs : List Char} (h : ∀ c ∈ cs, c ≠ '\r') :
    unifyNewlines cs = cs := by
  fun_induction unifyNewlines cs with
  | case1 rest ih => exact absurd rfl (h '\r' List.mem_cons_self)
  | case2 rest _ ih => exact absurd rfl (h '\r' List.mem_cons_self)
  | case3 c rest _ _ ih => rw [ih fun c hc => h c (List.mem_cons_of_mem _ hc)]
  | case4 => rfl

namespace TruthTable

open FuseMap.Json

variable {t : TruthTable} {tables : List TruthTable}

theorem plain_beq_plain (s s' : String) : (Str.plain s == Str.plain s') = (s == s') := by
  simp only [beq_eq_decide, Str.plain.injEq]

theorem isPlain_fieldNames : ∀ name ∈ fieldNames, ∀ c ∈ name.toList, IsPlain c := by
  simp [fieldNames, IsPlain]

/-- A reader takes the numbers of all pins of the tables. -/
def TakesPins (limits : Limits) (tables : List TruthTable) : Prop :=
  ∀ t ∈ tables, ∀ pin ∈ t.outputPin :: t.inputPins, limits.allowsDigits (Text.digitCount pin) = true

theorem allowsDepth_mono {limits : Limits} {m n : Nat} (hmn : m ≤ n)
    (h : limits.allowsDepth n = true) : limits.allowsDepth m = true := by
  obtain ⟨digits, _ | depth⟩ := limits
  · rfl
  · simp only [Limits.allowsDepth, Option.all_some, decide_eq_true_eq] at h ⊢
    omega

theorem plain_toJson {limits : Limits}
    (hpins : ∀ pin ∈ t.outputPin :: t.inputPins, limits.allowsDigits (Text.digitCount pin) = true)
    (hdepth : limits.allowsDepth 3 = true) : Value.Plain limits 1 t.toJson := by
  rw [List.forall_mem_cons] at hpins
  have hinputs : ∀ v ∈ t.inputPins.map Value.integer, Value.Plain limits 3 v := by
    intro v hv
    obtain ⟨pin, hpin, rfl⟩ := List.mem_map.1 hv
    exact .integer (hpins.2 pin hpin)
  have hentries : ∀ v ∈ t.entries.map Value.bool, Value.Plain limits 3 v := by
    intro v hv
    obtain ⟨b, -, rfl⟩ := List.mem_map.1 hv
    exact .bool b
  refine .object (allowsDepth_mono (by decide) hdepth) (by simp) ?_ ?_
  · intro f hf
    exact isPlain_fieldNames f.1 (List.mem_map_of_mem (f := Prod.fst) hf)
  · simp only [List.forall_mem_cons]
    exact ⟨.bool _, .array hdepth hinputs, .integer hpins.1, .array hdepth hentries, by simp⟩

/-- The value of tables has three levels, and no numbers but those of pins. -/
theorem plain_listToJson {limits : Limits} (hpins : TakesPins limits tables)
    (hdepth : limits.allowsDepth 3 = true) : Value.Plain limits 0 (listToJson tables) := by
  refine .array (allowsDepth_mono (by decide) hdepth) fun v hv => ?_
  obtain ⟨t, ht, rfl⟩ := List.mem_map.1 hv
  exact plain_toJson (hpins t ht) hdepth

theorem list?_map {α : Type} {item : Value → Option α} {inject : α → Value}
    (h : ∀ a, item (inject a) = some a) (as : List α) :
    list? item (.array (as.map inject)) = some as := by
  induction as with
  | nil => rfl
  | cons a as ih =>
    rw [list?] at ih ⊢
    rw [List.map_cons, List.mapM_cons, h, ih]
    rfl

/-- A complete table is read back from its value. -/
theorem ofJson_toJson (h : t.Complete) (index : Nat) : ofJson index t.toJson = .ok t := by
  have hpins : list? integer? (.array (t.inputPins.map .integer)) = some t.inputPins := by
    apply list?_map
    intro a
    rfl
  have hentries : list? boolean? (.array (t.entries.map .bool)) = some t.entries := by
    apply list?_map
    intro a
    rfl
  simp [ofJson, toJson, Value.object, plainField, require, fieldNames, List.lookup_cons,
    plain_beq_plain, integer?, boolean?, hpins, hentries, h.inputs, h.entries]

theorem listOfJson_listToJson (h : ∀ t ∈ tables, t.Complete) :
    listOfJson (listToJson tables) = .ok tables := by
  have hread : ∀ k, ((tables.map toJson).zipIdx k).mapM (fun entry => ofJson entry.2 entry.1) =
      .ok tables := by
    induction tables with
    | nil => exact fun _ => rfl
    | cons t tables ih =>
      intro k
      rw [List.forall_mem_cons] at h
      rw [List.map_cons, List.zipIdx_cons, List.mapM_cons]
      simp only [ofJson_toJson h.1, ih h.2]
      rfl
  exact hread 0

/-- Tables are read from a file as they were written, if the reader takes the numbers of their
pins. -/
theorem loadWithin_save {limits : Limits} (h : ∀ t ∈ tables, t.Complete)
    (hpins : TakesPins limits tables) (hdepth : limits.allowsDepth 3 = true) (path : String) :
    loadWithin limits path (Text.unifyNewlines (save tables).toList) = .ok tables := by
  have hgap : IsGap "\n" := by simp [IsGap]
  have hplain := plain_listToJson hpins hdepth
  have hreturn : ∀ c ∈ (save tables).toList, c ≠ '\r' := by
    rw [save, String.toList_append, List.forall_mem_append]
    exact ⟨ne_return_render regular_indentedLayout hplain 0, ne_return_of_isGap hgap⟩
  rw [Text.unifyNewlines_eq_self hreturn, loadWithin, save, parseWithin_indented hplain hgap]
  exact listOfJson_listToJson h

/-- Standard JSON has numbers of any size. -/
theorem load_save (h : ∀ t ∈ tables, t.Complete) (path : String) :
    load path (Text.unifyNewlines (save tables).toList) = .ok tables :=
  loadWithin_save h (fun _ _ _ _ => rfl) rfl path

/-! ## From values to tables and back -/

/-- An object with nothing but the fields of the given names, in the order of these. -/
def onlyFields (names : List String) : Value → Value
  | .record fields =>
    .object (names.filterMap fun name => (fields.lookup ↑name).map fun v => (name, v))
  | v => v

/-- An array whose objects have nothing but the fields of the given names. -/
def onlyFieldsOfItems (names : List String) : Value → Value
  | .array items => .array (items.map (onlyFields names))
  | v => v

theorem eq_integer_of_integer? {v : Value} {n : Int} (h : integer? v = some n) :
    v = .integer n := by
  cases v <;> cases h; rfl

theorem eq_bool_of_boolean? {v : Value} {b : Bool} (h : boolean? v = some b) : v = .bool b := by
  cases v <;> cases h; rfl

theorem eq_array_of_list? {α : Type} {item : Value → Option α} {inject : α → Value}
    (h : ∀ {v a}, item v = some a → v = inject a) {v : Value} {as : List α}
    (hv : list? item v = some as) : v = .array (as.map inject) := by
  cases v with
  | array items =>
    rw [list?] at hv
    induction items generalizing as with
    | nil =>
      cases hv
      rfl
    | cons v items ih =>
      rw [List.mapM_cons] at hv
      simp only [Option.bind_eq_bind, Option.bind_eq_some_iff, Option.pure_def,
        Option.some.injEq] at hv
      obtain ⟨a, ha, as, has, rfl⟩ := hv
      have hitems := ih has
      rw [Value.array.injEq] at hitems
      rw [h ha, hitems, List.map_cons]
  | _ => cases hv

theorem require_eq_ok_iff {α : Type} {fault : Fault} {o : Option α} {a : α} :
    require fault o = .ok a ↔ o = some a := by
  cases o with
  | none => simp [require]
  | some b => simp [require]

/-- A table is read from the four fields of an object. -/
theorem exists_fields_of_ofJson {index : Nat} {entry : Value} (h : ofJson index entry = .ok t) :
    ∃ fields, entry = .record fields ∧
      fields.lookup ↑"outputPin" = some (.integer t.outputPin) ∧
      fields.lookup ↑"inputPins" = some (.array (t.inputPins.map .integer)) ∧
      fields.lookup ↑"table" = some (.array (t.entries.map .bool)) ∧
      fields.lookup ↑"dff" = some (.bool t.registered) := by
  simp only [ofJson, throw_eq_error, error_bind, bind_eq_ok_iff, ite_error_eq_ok_iff,
    pure_eq_ok_iff, require_eq_ok_iff, Option.bind_eq_some_iff] at h
  obtain ⟨fields, hobject, -, outputPin, ⟨v₁, hv₁, houtput⟩, inputPins, ⟨v₂, hv₂, hinputs⟩,
    entries, ⟨v₃, hv₃, hentries⟩, registered, ⟨v₄, hv₄, hregistered⟩, -, -, rfl⟩ := h
  split at hobject
  · cases hobject
    obtain rfl := eq_integer_of_integer? houtput
    obtain rfl := eq_array_of_list? eq_integer_of_integer? hinputs
    obtain rfl := eq_array_of_list? eq_bool_of_boolean? hentries
    obtain rfl := eq_bool_of_boolean? hregistered
    exact ⟨_, rfl, hv₁, hv₂, hv₃, hv₄⟩
  · cases hobject

/-- The value of a table that was read, its other fields left out. -/
theorem toJson_of_ofJson {index : Nat} {entry : Value} (h : ofJson index entry = .ok t) :
    t.toJson = onlyFields fieldNames entry := by
  obtain ⟨fields, rfl, houtput, hinputs, hentries, hregistered⟩ := exists_fields_of_ofJson h
  simp [onlyFields, fieldNames, toJson, houtput, hinputs, hentries, hregistered]

theorem listToJson_of_listOfJson {v : Value} (h : listOfJson v = .ok tables) :
    listToJson tables = onlyFieldsOfItems fieldNames v := by
  cases v with
  | array entries =>
    have hmap : tables.map toJson = entries.zipIdx.map (onlyFields fieldNames ∘ Prod.fst) :=
      map_eq_of_mapM_eq_ok h toJson_of_ofJson
    rw [listToJson, hmap, ← List.map_map, List.zipIdx_map_fst, onlyFieldsOfItems]
  | _ => cases h

/-- The pins of a table are integers of its value. -/
theorem hasInteger_of_ofJson {index : Nat} {entry : Value} (h : ofJson index entry = .ok t) :
    ∀ pin ∈ t.outputPin :: t.inputPins, entry.HasInteger pin := by
  obtain ⟨fields, rfl, houtput, hinputs, -⟩ := exists_fields_of_ofJson h
  refine List.forall_mem_cons.2 ⟨.of_lookup houtput .self, fun pin hpin => ?_⟩
  exact .of_lookup hinputs (.item (List.mem_map_of_mem hpin) .self)

/-- The pins of tables are integers in their value. -/
theorem takesPins_of_listOfJson {limits : Limits} {v : Value} (h : listOfJson v = .ok tables)
    (hv : v.Within limits) : TakesPins limits tables := by
  cases v with
  | array entries =>
    intro t ht pin hpin
    obtain ⟨entry, hentry, hof⟩ := (mem_iff_of_mapM_eq_ok h).1 ht
    refine hv pin (.item ?_ (hasInteger_of_ofJson hof pin hpin))
    exact List.fst_mem_of_mem_zipIdx hentry
  | _ => cases h

/-- A reader takes the pins of the tables that it has read. -/
theorem takesPins_of_loadWithin {limits : Limits} {path : String} {text : List Char}
    (h : loadWithin limits path text = .ok tables) : TakesPins limits tables := by
  unfold loadWithin at h
  split at h
  · next v hparse => exact takesPins_of_listOfJson h (within_of_parseWithin hparse)
  · cases h

/-- Tables and their JSON give each other back: what is saved is loaded as it was, and what is
loaded from a value is this value as far as tables have a use for it. -/
theorem tables_round_trip :
    (∀ {tables : List TruthTable}, (∀ t ∈ tables, t.Complete) → ∀ path,
      load path (Text.unifyNewlines (save tables).toList) = .ok tables) ∧
    (∀ {v : Value} {tables : List TruthTable}, listOfJson v = .ok tables →
      listToJson tables = onlyFieldsOfItems fieldNames v) := by
  constructor
  · intro tables hcomplete path
    exact load_save hcomplete path
  · intro v tables hload
    exact listToJson_of_listOfJson hload

/-- A table without inputs, and one with a repeated input and a pin of many digits. -/
def oddTables : List TruthTable :=
  [⟨-7, true, [], [true]⟩, ⟨0, false, [5, 123456789012345678901, 5], List.replicate 8 false⟩]

/-- The first of them in JSON with its fields in another order and one field more. -/
def oddValue : Value :=
  .array [.object [("table", .array [.bool true]), ("note", .null), ("outputPin", .integer (-7)),
    ("inputPins", .array []), ("dff", .bool true)]]

theorem tables_round_trip_odd :
    load "odd.json" (Text.unifyNewlines (save oddTables).toList) = .ok oddTables ∧
    load "odd.json" (Text.unifyNewlines (save []).toList) = .ok [] ∧
    listOfJson oddValue = .ok (oddTables.take 1) ∧
    listToJson (oddTables.take 1) = onlyFieldsOfItems fieldNames oddValue := by
  have hcomplete : ∀ t ∈ oddTables, t.Complete := by
    simp only [oddTables, List.forall_mem_cons]
    exact ⟨⟨by decide, rfl⟩, ⟨by decide, rfl⟩, by simp⟩
  have hload : listOfJson oddValue = .ok (oddTables.take 1) := rfl
  exact ⟨tables_round_trip.1 hcomplete _, tables_round_trip.1 (by simp) _, hload,
    tables_round_trip.2 hload⟩

end TruthTable

end FuseMap
