import FuseMap.Device.Registry
import FuseMap.Jedec.File
import FuseMap.Proofs.TableFile
import FuseMap.Proofs.ValidTables

/-! # Errors that are not reported

Where the errors that end a run at once come from. An error is reported if it is of such a kind and
the numbers in its wording can be written (`Error.Shown`). The validity of pins gives no other
errors (`Device.reports_validateFrom`), and a table file only if it exceeds the limits of the reader
(`TruthTable.loadWithin_error`). A profile file gives one for the faults of `Device.Unloadable`, and
a device for those of `Device.Unwritable`.
-/

namespace FuseMap

/-- An error is reported: it is of such a kind, and the numbers in its wording can be written. -/
def Error.Shown (e : Error) : Prop := e.isReported = true ∧ ∀ n ∈ e.numbers, Text.IsShort n

theorem Error.shown_iff {e : Error} : e.Shown ↔ (e.isReported && e.isWritable) = true := by
  simp [Shown, isWritable, Text.IsShort]

theorem Error.Shown.of_plain {e : Error} (hkind : e.isReported = true)
    (hnumbers : e.numbers = []) : e.Shown :=
  ⟨hkind, by simp [hnumbers]⟩

/-- An error of a reported kind is not shown only if one of its numbers is too long. -/
theorem Error.exists_long {e : Error} (hkind : e.isReported = true) (h : ¬ e.Shown) :
    ∃ n ∈ e.numbers, ¬ Text.IsShort n := by
  simpa [Shown, hkind] using h

/-- A value is an infinite number or has one inside. -/
inductive Json.Value.HasInfinite : Json.Value → Prop
  | number (negative : Bool) : HasInfinite (.real (.infinite negative))
  | item {items : List Json.Value} {v : Json.Value} : v ∈ items → HasInfinite v →
    HasInfinite (.array items)
  | field {fields : List (Json.Str × Json.Value)} {name : Json.Str} {v : Json.Value} :
    (name, v) ∈ fields → HasInfinite v → HasInfinite (.record fields)

namespace Device

/-! ## Profiles -/

namespace Reader

open FuseMap.Json (Value)

variable {α β : Type} {v x : Value} {name : String}

/-- A fault of a value: it is said to have an infinite number only if it does, and nothing is said
about its identifier. -/
def Blamed (v : Value) : Unreadable → Prop
  | .infinite => v.HasInfinite
  | .malformed cause => cause ≠ .brokenIdentifier

/-- A step of reading a value fails with such a fault if it fails. -/
def Blames (v : Value) (step : Except Unreadable α) : Prop := FailsOnly (Blamed v) step

theorem Blames.of_part {step : Except Unreadable α} (h : Blames x step)
    (hx : x.HasInfinite → v.HasInfinite) : Blames v step := by
  refine h.mono fun e he => ?_
  cases e with
  | infinite => exact hx he
  | malformed cause => exact he

theorem blames_malformed {cause : Malformation} (h : cause ≠ .brokenIdentifier) :
    Blames v (malformed cause : Except Unreadable α) := .error h

/-- An infinite number is the only value for which the fault of reading an integer is not a
malformation. -/
theorem blames_integer (v : Value) : Blames v (integer v) := by
  cases v with
  | real x =>
    cases x with
    | infinite negative => exact .error (.number negative)
    | notANumber => exact blames_malformed nofun
    | finite => exact .ok _
  | string s =>
    rw [integer]
    split
    · exact .ok _
    · exact blames_malformed nofun
  | bool | integer => exact .ok _
  | null | broken | array | record => exact blames_malformed nofun

theorem blames_field (name : String) (v : Value) : Blames v (field name v) := by
  unfold field
  split
  · split
    · exact .ok _
    · exact blames_malformed nofun
  · exact blames_malformed nofun

theorem hasInfinite_of_lookup {fields : List (Json.Str × Value)} (h : fields.lookup ↑name = some x)
    (hx : x.HasInfinite) : (Value.record fields).HasInfinite := by
  obtain ⟨front, back, rfl, -⟩ := List.lookup_eq_some_iff.1 h
  exact .field (List.mem_append_right _ List.mem_cons_self) hx

theorem hasInfinite_of_field (h : field name v = .ok x) (hx : x.HasInfinite) : v.HasInfinite := by
  unfold field at h
  split at h
  · split at h
    · next hlookup =>
      cases h
      exact hasInfinite_of_lookup hlookup hx
    · cases h
  · cases h

/-- A field that may be left out has no infinite number if it is. -/
theorem hasInfinite_of_field? {default : Value} (hdefault : ¬ default.HasInfinite)
    (h : ((v.field? name).getD default).HasInfinite) : v.HasInfinite := by
  cases hfield : v.field? name with
  | none =>
    rw [hfield] at h
    exact absurd h hdefault
  | some x =>
    rw [hfield] at h
    cases v with
    | record fields => exact hasInfinite_of_lookup hfield h
    | null | bool | integer | real | string | broken | array => cases hfield

theorem blames_parts (v : Value) : Blames v (parts v) := by
  unfold parts
  split
  · exact .ok _
  · exact .ok _
  · exact .ok _
  · exact .ok _
  · exact blames_malformed nofun

/-- The parts of a list are its items; other values have no numbers as parts. -/
theorem hasInfinite_of_parts {items : List Value} (h : parts v = .ok items) (hx : x ∈ items)
    (hinfinite : x.HasInfinite) : v.HasInfinite := by
  -- the parts of strings and objects are strings, which are no numbers
  have hstrings : ∀ {γ : Type} (l : List γ) (string : γ → Json.Str),
      x ∉ l.map fun c => (string c).value := by
    intro γ l string hmem
    obtain ⟨c, -, rfl⟩ := List.mem_map.1 hmem
    cases hc : string c with
    | plain | broken =>
      rw [hc] at hinfinite
      cases hinfinite
  unfold parts at h
  split at h
  · cases h
    exact .item hx hinfinite
  · cases h
    exact absurd hx (hstrings _ fun c => .plain (String.singleton c))
  · cases h
    exact absurd hx (hstrings _ _)
  · cases h
    exact absurd hx (hstrings _ _)
  · cases h

theorem blames_mapM_parts {read : Value → Except Unreadable α} (hread : ∀ x, Blames x (read x))
    {items : List Value} (hitems : parts v = .ok items) : Blames v (items.mapM read) :=
  .mapM fun x hx => (hread x).of_part (hasInfinite_of_parts hitems hx)

theorem blames_integers (v : Value) : Blames v (integers v) :=
  (blames_parts v).bind fun _ hitems => blames_mapM_parts blames_integer hitems

theorem blames_integerFields (v : Value) : Blames v (integerFields v) := by
  unfold integerFields fieldsOf
  split
  · next fields =>
    refine FailsOnly.bind (.ok fields) ?_
    rintro _ ⟨⟩
    refine .mapM fun f hf => FailsOnly.bind ?_ fun n _ => .ok _
    exact (blames_integer f.2).of_part fun h => .field hf h
  · have hkind : Blames v (malformed .notAnObject : Except Unreadable (List (Json.Str × Value))) :=
      blames_malformed nofun
    exact hkind.bind fun _ h => nomatch h

theorem blames_addPair (values : List (Json.Str × Value)) (pair : Value) :
    Blames v (addPair values pair) := by
  unfold addPair parts
  refine FailsOnly.bind ?_ fun items _ => ?_
  · split
    · exact .ok _
    · exact .ok _
    · exact .ok _
    · exact .ok _
    · exact blames_malformed nofun
  · split
    · exact .ok _
    · exact blames_malformed nofun
    · exact blames_malformed nofun
    · exact .ok _
    · exact blames_malformed nofun

theorem blames_namedValues (v : Value) : Blames v (namedValues v) := by
  unfold namedValues
  split
  · exact .ok _
  · refine (blames_parts v).bind fun items _ => FailsOnly.bind ?_ fun _ _ => .ok _
    exact .foldlM fun values pair _ => blames_addPair values pair

/-- A field is read, and then the rest. -/
theorem blames_read {read : Value → Except Unreadable α} {next : α → Except Unreadable β}
    (hread : ∀ x, Blames x (read x)) (hnext : ∀ a, Blames v (next a)) :
    Blames v (field name v >>= fun x => read x >>= next) := by
  refine (blames_field name v).bind fun x hx => FailsOnly.bind ?_ fun a _ => hnext a
  exact (hread x).of_part (hasInfinite_of_field hx)

theorem blames_outputCell (v : Value) : Blames v (outputCell v) := by
  unfold outputCell
  refine blames_read blames_integer fun pin => blames_read blames_integer fun firstRow => ?_
  refine blames_read blames_integer fun termRows => ?_
  exact blames_read blames_integerFields fun modeBits => .ok _

theorem blames_region (v : Value) : Blames v (region v) := by
  unfold region
  refine (blames_field _ v).bind fun name _ => blames_read blames_integer fun offset => ?_
  exact blames_read blames_integer fun width => .ok _

theorem blames_profile (v : Value) : Blames v (profile v) := by
  unfold profile
  refine (blames_field _ v).bind fun deviceName _ => ?_
  refine blames_read blames_integer fun pinCount => blames_read blames_integer fun fuseCount => ?_
  refine blames_read blames_integers fun columnPins => ?_
  refine blames_read blames_integers fun inputPins => ?_
  refine blames_read blames_integers fun outputPins => ?_
  refine blames_read blames_integer fun connectedFuse => ?_
  refine blames_read blames_namedValues fun modeValues => ?_
  refine (blames_field _ v).bind fun x hx => ?_
  have houtputs := hasInfinite_of_field hx
  refine FailsOnly.bind ((blames_parts x).of_part houtputs) fun items hitems => ?_
  refine FailsOnly.bind ((blames_mapM_parts blames_outputCell hitems).of_part houtputs)
    fun outputs _ => ?_
  refine FailsOnly.bind ((blames_integerFields _).of_part ?_) fun sharedRows _ => ?_
  · exact hasInfinite_of_field? (by rintro ⟨⟩; contradiction)
  have hregions : ((v.field? "regions").getD (.array [])).HasInfinite → v.HasInfinite :=
    hasInfinite_of_field? (by rintro ⟨⟩; contradiction)
  refine FailsOnly.bind ((blames_parts _).of_part hregions) fun items hitems => ?_
  refine FailsOnly.bind ((blames_mapM_parts blames_region hitems).of_part hregions)
    fun regions _ => ?_
  exact .ok _

end Reader

variable {e : Error}

/-- A profile fails with a report, unless it has an infinite number, or a number that is too long in
the fault of its geometry. -/
theorem ofJson_error {identifier : String} {v : Json.Value} (h : ofJson identifier v = .error e) :
    e.Shown ∨ (e = .infiniteNumber ∧ v.HasInfinite) ∨
      ∃ fault, e = .unsoundProfile identifier fault ∧ ∃ n ∈ fault.numbers, ¬ Text.IsShort n := by
  unfold ofJson at h
  split at h
  · unfold ofProfile at h
    split at h
    · cases h
    · next fault _ =>
      cases h
      by_cases hshown : (Error.unsoundProfile identifier fault).Shown
      · exact .inl hshown
      · exact .inr (.inr ⟨fault, rfl, Error.exists_long rfl hshown⟩)
  · next cause hcause =>
    cases h
    have hne : cause ≠ .brokenIdentifier := Reader.blames_profile v _ hcause
    cases cause with
    | brokenIdentifier => exact absurd rfl hne
    | missingField | wrongKind | badValue | notAnObject => exact .inl (.of_plain rfl rfl)
  · next hinfinite =>
    cases h
    exact .inr (.inl ⟨rfl, Reader.blames_profile v _ hinfinite⟩)

/-- What keeps a profile file from being loaded, and is not reported. -/
inductive Unloadable (limits : Json.Limits) (path : String) (text : List Char) : Error → Prop
  | infinite {v : Json.Value} : Json.parseWithin limits (withoutComments text) = .ok v →
    v.HasInfinite → Unloadable limits path text .infiniteNumber
  /-- An identifier is no text, so that it cannot be printed. -/
  | identifier {fields : List (Json.Str × Json.Value)} {b : Json.Broken} {v : Json.Value} :
    Json.parseWithin limits (withoutComments text) = .ok (.record fields) →
    (.broken b, v) ∈ fields →
    Unloadable limits path text (.malformedProfile (b.text Json.codeEscape) .brokenIdentifier)
  /-- The geometry of a profile is refused, with a number that is too long to be written. -/
  | number {fields : List (Json.Str × Json.Value)} {identifier : String} {v : Json.Value}
      {fault : GeometryFault} {n : Int} :
    Json.parseWithin limits (withoutComments text) = .ok (.record fields) →
    (.plain identifier, v) ∈ fields →
    ofJson identifier v = .error (.unsoundProfile identifier fault) →
    n ∈ fault.numbers → ¬ Text.IsShort n →
    Unloadable limits path text (.unsoundProfile identifier fault)
  | limit {e : Json.SyntaxError} : Json.parseWithin limits (withoutComments text) = .error e →
    e.fault.isLimit = true → Unloadable limits path text (.profilesNotJson path e)

/-- A profile that is not built has an identifier that cannot be printed, or fails by itself. -/
theorem build_error {fields : List (Json.Str × Json.Value)}
    (h : (build fields).devices = .error e) :
    (∃ b v, (.broken b, v) ∈ fields ∧
      e = .malformedProfile (b.text Json.codeEscape) .brokenIdentifier) ∨
    ∃ identifier v, (.plain identifier, v) ∈ fields ∧ ofJson identifier v = .error e := by
  fun_induction build fields with
  | case1 => cases h
  | case2 b v rest =>
    cases h
    exact .inl ⟨b, v, List.mem_cons_self, rfl⟩
  | case3 identifier v rest e' hjson =>
    cases h
    exact .inr ⟨identifier, v, List.mem_cons_self, hjson⟩
  | case4 identifier v rest d hjson others ih =>
    cases hrest : (build rest).devices with
    | ok devices => simp [others, hrest, Except.map] at h
    | error e' =>
      simp only [others, hrest, Except.map, Except.error.injEq] at h
      obtain ⟨b, v, hmem, rfl⟩ | ⟨identifier, v, hmem, herror⟩ := ih (h ▸ hrest)
      · exact .inl ⟨b, v, List.mem_cons_of_mem _ hmem, rfl⟩
      · exact .inr ⟨identifier, v, List.mem_cons_of_mem _ hmem, herror⟩

/-- Profile files fail with a report, the faults of `Unloadable` apart. -/
theorem loadWithin_error {limits : Json.Limits} {path : String} {text : List Char}
    (h : (loadWithin limits path text).devices = .error e) :
    e.Shown ∨ Unloadable limits path text e := by
  unfold loadWithin at h
  split at h
  · next e' hparse =>
    cases h
    cases hlimit : e'.fault.isLimit with
    | true => exact .inr (.limit hparse hlimit)
    | false => exact .inl (.of_plain (by rw [Error.isReported, hlimit]; rfl) rfl)
  · next fields hparse =>
    obtain ⟨b, v, hmem, rfl⟩ | ⟨identifier, v, hmem, herror⟩ := build_error h
    · exact .inr (.identifier hparse hmem)
    · obtain hshown | ⟨rfl, hinfinite⟩ | ⟨fault, rfl, n, hn, hlong⟩ := ofJson_error herror
      · exact .inl hshown
      · exact .inr (.infinite hparse (.field hmem hinfinite))
      · exact .inr (.number hparse hmem herror hn hlong)
  · cases h
    exact .inl (.of_plain rfl rfl)

end Device

/-! ## Tables -/

/-- A computation fails with a report. -/
def Reports {α : Type} (step : Except Error α) : Prop := FailsOnly Error.Shown step

namespace TruthTable

/-- Tables as they are read, from a design or from a table file. -/
structure AsRead (tables : List TruthTable) : Prop where
  complete : ∀ t ∈ tables, t.Complete
  short : ∀ t ∈ tables, ∀ pin ∈ t.outputPin :: t.inputPins, Text.IsShort pin

theorem isShort_of_allowsDigits {limits : Json.Limits}
    (hlimits : limits.digits = some Text.maxDigits) {n : Int}
    (h : limits.allowsDigits (Text.digitCount n) = true) : Text.IsShort n := by
  simpa [Json.Limits.allowsDigits, hlimits, Text.IsShort] using h

theorem reports_require {α : Type} {fault : Fault} (o : Option α) : Reports (require fault o) := by
  cases o with
  | some a => exact .ok a
  | none => exact .error (.of_plain rfl rfl)

/-- What is wrong with a table in a file is reported, as its pins are not too long. -/
theorem reports_ofJson (index : Nat) {entry : Json.Value}
    (h : ∀ n, entry.HasInteger n → Text.IsShort n) : Reports (ofJson index entry) := by
  refine (reports_require _).bind fun fields hfields => ?_
  refine .ite (fun _ => .error (.of_plain rfl rfl)) fun _ => ?_
  refine (reports_require _).bind fun outputPin houtput => ?_
  refine (reports_require _).bind fun inputPins _ => (reports_require _).bind fun entries _ => ?_
  refine (reports_require _).bind fun registered _ => ?_
  have hpin : ∀ n ∈ [outputPin], Text.IsShort n := by
    refine List.forall_mem_singleton.2 (h _ ?_)
    obtain ⟨x, hx, hinteger⟩ := Option.bind_eq_some_iff.1 (require_eq_ok_iff.1 houtput)
    obtain rfl := eq_integer_of_integer? hinteger
    have hentry := require_eq_ok_iff.1 hfields
    split at hentry
    · cases hentry
      exact Json.Value.HasInteger.of_lookup hx .self
    · cases hentry
  refine .ite (fun _ => .error ⟨rfl, hpin⟩) fun _ => ?_
  exact .ite (fun _ => .error ⟨rfl, hpin⟩) fun _ => .ok _

theorem reports_listOfJson {v : Json.Value} (h : ∀ n, v.HasInteger n → Text.IsShort n) :
    Reports (listOfJson v) := by
  unfold listOfJson
  split
  · refine .mapM fun entry hentry => reports_ofJson _ fun n hn => ?_
    exact h n (.item (List.fst_mem_of_mem_zipIdx hentry) hn)
  · exact .error (.of_plain rfl rfl)

/-- Table files fail with a report, unless they exceed the limits of the reader. -/
theorem loadWithin_error {limits : Json.Limits} (hlimits : limits.digits = some Text.maxDigits)
    {path : String} {text : List Char} {e : Error} (h : loadWithin limits path text = .error e) :
    e.Shown ∨ ∃ e', Json.parseWithin limits text = .error e' ∧ e'.fault.isLimit = true ∧
      e = .tablesNotJson path e' := by
  unfold loadWithin at h
  split at h
  · next v hparse =>
    refine .inl (reports_listOfJson (fun n hn => ?_) e h)
    exact isShort_of_allowsDigits hlimits (Json.within_of_parseWithin hparse n hn)
  · next e' hparse =>
    cases h
    cases hlimit : e'.fault.isLimit with
    | true => exact .inr ⟨e', hparse, hlimit, rfl⟩
    | false => exact .inl (.of_plain (by rw [Error.isReported, hlimit]; rfl) rfl)

/-- The tables of a file are complete, and their pins were read and can be written. -/
theorem asRead_of_loadWithin {limits : Json.Limits} (hlimits : limits.digits = some Text.maxDigits)
    {path : String} {text : List Char} {tables : List TruthTable}
    (h : loadWithin limits path text = .ok tables) : AsRead tables where
  complete := by
    unfold loadWithin at h
    split at h
    · exact complete_of_listOfJson h
    · cases h
  short t ht pin hpin := isShort_of_allowsDigits hlimits (takesPins_of_loadWithin h t ht pin hpin)

end TruthTable

namespace Device

theorem reports_validateInputs (d : Device) {outputPin : Int} (seen : List Int)
    {inputPins : List Int} (houtput : Text.IsShort outputPin)
    (h : ∀ pin ∈ inputPins, Text.IsShort pin) :
    Reports (d.validateInputs outputPin seen inputPins) := by
  induction inputPins generalizing seen with
  | nil => exact .ok _
  | cons pin inputPins ih =>
    rw [List.forall_mem_cons] at h
    have hpins : ∀ n ∈ [pin, outputPin], Text.IsShort n :=
      List.forall_mem_cons.2 ⟨h.1, List.forall_mem_singleton.2 houtput⟩
    refine .ite (fun _ => .error ⟨rfl, hpins⟩) fun _ => ?_
    exact .ite (fun _ => .error ⟨rfl, hpins⟩) fun _ => ih _ h.2

theorem reports_validateFrom (d : Device) (configured : List Int) {tables : List TruthTable}
    (h : ∀ t ∈ tables, ∀ pin ∈ t.outputPin :: t.inputPins, Text.IsShort pin) :
    Reports (d.validateFrom configured tables) := by
  induction tables generalizing configured with
  | nil => exact .ok _
  | cons t tables ih =>
    rw [List.forall_mem_cons, List.forall_mem_cons] at h
    obtain ⟨⟨houtput, hinputs⟩, htables⟩ := h
    have hpin : ∀ n ∈ [t.outputPin], Text.IsShort n := List.forall_mem_singleton.2 houtput
    refine .ite (fun _ => .error ⟨rfl, hpin⟩) fun _ => ?_
    refine .ite (fun _ => .error ⟨rfl, hpin⟩) fun _ => ?_
    exact (reports_validateInputs d _ houtput hinputs).bind fun _ _ => ih _ htables

end Device

/-! ## Devices -/

namespace Device

variable {d : Device} {e : Error} {tables : List TruthTable}

/-- What keeps a device from having a fuse file, and is not reported. -/
inductive Unwritable (d : Device) : Error → Prop
  | fuseCount : isSize d.profile.fuseCount = false → Unwritable d .arrayTooLarge
  /-- The matrix can have a negative number of fuses if shared rows have negative numbers. -/
  | negativeCount : d.profile.fuseCount < 0 →
    Unwritable d (.wrongFuseCount 0 d.identifier d.profile.fuseCount)
  /-- A value for mode bits equals 0 or 1, but is written with a point. -/
  | modeValue {name : String} {x : Decimal.Binary64} : name ∈ Profile.requiredModeValues →
    d.profile.modeValue? name = some (.real x) → Unwritable d .fuseValueKind
  | name {c : Char} : c ∈ d.profile.deviceName.toList → 128 ≤ c.toNat → Unwritable d .notAscii
  /-- An output has no rows, and the place where they would be has too long a number. -/
  | place {o : OutputCell} {first stop outputPin n : Int} : o ∈ d.profile.outputs →
    o.rowCount = 0 → n ∈ (Error.fusesOutside first stop outputPin).numbers → ¬ Text.IsShort n →
    Unwritable d (.fusesOutside first stop outputPin)
  /-- One of two outputs has no rows, and the place where they meet has too long a number. -/
  | sharedPlace {o : OutputCell} {first stop outputPin owner n : Int} : o ∈ d.profile.outputs →
    o.rowCount = 0 → n ∈ (Error.fusesTaken first stop outputPin owner).numbers →
    ¬ Text.IsShort n → Unwritable d (.fusesTaken first stop outputPin owner)

/-- The number of true entries of a complete table can be written. -/
theorem isShort_of_le_trueCount {t : TruthTable} (ht : t.Complete) {n : Int} (hn : 0 ≤ n)
    (hle : n ≤ t.trueCount) : Text.IsShort n := by
  have hcount : t.trueCount ≤ TruthTable.combinations TruthTable.maxInputs := by
    refine Nat.le_trans List.count_le_length ?_
    rw [ht.entries]
    exact Nat.pow_le_pow_right (by decide) ht.inputs
  have hdigits : Text.digitCount n ≤ 20 := by
    refine (Nat.length_toDigits_le_iff (by decide) (by decide)).2 (Nat.lt_of_le_of_lt ?_
      (show TruthTable.combinations TruthTable.maxInputs < 10 ^ 20 by decide))
    omega
  exact Nat.le_trans hdigits (by decide)

/-- A refusal of tables is reported, unless there is a fault of the device that keeps it from being
so. -/
theorem Refuses.shown_or_unwritable (h : d.Refuses tables e) (htables : TruthTable.AsRead tables) :
    e.Shown ∨ d.Unwritable e := by
  have hpins : ∀ {t : TruthTable}, t ∈ tables → Text.IsShort t.outputPin := fun ht =>
    htables.short _ ht _ List.mem_cons_self
  cases h with
  | modeValue hname hvalue => exact .inr (.modeValue hname hvalue)
  | fuseCount hsize => exact .inr (.fuseCount hsize)
  | tooManyInputs ht | wrongTableLength ht | noCell ht =>
    exact .inl ⟨rfl, List.forall_mem_singleton.2 (hpins ht)⟩
  | tooManyTerms ht ho hterms =>
    obtain ⟨hmem, -⟩ := output_eq_ok_iff.1 ho
    have hcapacity := isShort_of_le_trueCount (htables.complete _ ht)
      (d.geometry.cells _ hmem).2.1 (Int.le_of_lt hterms)
    exact .inl ⟨rfl, List.forall_mem_cons.2 ⟨hpins ht, List.forall_mem_singleton.2 hcapacity⟩⟩
  | noColumn ht hpin =>
    exact .inl ⟨rfl, List.forall_mem_singleton.2 (htables.short _ ht _ (.tail _ hpin))⟩
  | @noRows t o first stop ht ho hrows =>
    by_cases hshown : (Error.fusesOutside first stop t.outputPin).Shown
    · exact .inl hshown
    · obtain ⟨n, hn, hlong⟩ := Error.exists_long rfl hshown
      exact .inr (.place (output_eq_ok_iff.1 ho).1 hrows hn hlong)
  | @noRowsBetween t t' o o' first stop ht ht' ho ho' hrows =>
    by_cases hshown : (Error.fusesTaken first stop t.outputPin t'.outputPin).Shown
    · exact .inl hshown
    · obtain ⟨n, hn, hlong⟩ := Error.exists_long rfl hshown
      rcases hrows with hrows | hrows
      · exact .inr (.sharedPlace (output_eq_ok_iff.1 ho).1 hrows hn hlong)
      · exact .inr (.sharedPlace (output_eq_ok_iff.1 ho').1 hrows hn hlong)

/-- With the fuses of a program, only the device name and the number of fuses can be wrong. -/
theorem unwritable_of_render {a : FuseArray} (hprogram : d.program tables = .ok a)
    (h : Jedec.render d a.fuses = .error e) : d.Unwritable e := by
  obtain ⟨start, blocks, hprogrammed⟩ := program_ok hprogram
  have hlength := hprogrammed.length_eq
  rw [Jedec.render, ite_error_eq_error_iff, ite_error_eq_error_iff] at h
  rcases h with ⟨hcount, rfl⟩ | ⟨-, ⟨hname, rfl⟩ | ⟨-, h⟩⟩
  · have hnegative : d.profile.fuseCount < 0 := by omega
    rw [hlength, Int.toNat_of_nonpos (Int.le_of_lt hnegative)]
    exact .negativeCount hnegative
  · simp only [List.all_eq_true, decide_eq_true_eq, not_forall, Nat.not_lt] at hname
    obtain ⟨c, hc, hlarge⟩ := hname
    exact .name hc hlarge
  · cases h

end Device

end FuseMap
