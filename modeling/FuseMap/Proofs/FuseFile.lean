import FuseMap.Jedec.File
import FuseMap.Proofs.Coverage
import FuseMap.Proofs.Numeral

/-! # Reading fuse files back

`Jedec.readFuses` reads the fuses of a file: all of them are 0 until the lists of fuses in the file
are written one after the other. Every file that is made reads back as the fuses it was made of,
and its counts and checksums are right (`Jedec.FuseFile.Records`).
-/

namespace FuseMap.Jedec

open Device

/-! ## The parts of a file -/

def charFuse (c : Char) : Fuse := if c = '0' then 0 else 1

/-- A list of fuses as it is written: the address of the first one and their states. -/
structure FuseList where
  address : List Char
  states : List Char
deriving DecidableEq, Repr

namespace FuseList

/-- The field of a list of fuses. -/
def text (l : FuseList) : List Char := 'L' :: l.address ++ ' ' :: l.states

/-- The fuses with the listed ones written at their address. -/
def write (fuses : List Fuse) (l : FuseList) : List Fuse :=
  FuseArray.overwrite fuses (Text.digitsValue l.address) (l.states.map charFuse)

end FuseList

/-- A fuse file taken apart, its last checksum left out. -/
structure FuseFile where
  deviceName : String
  /-- The number of fuses. -/
  count : List Char
  lists : List FuseList
  /-- The checksum of the fuses. -/
  checksum : List Char

namespace FuseFile

/-- The line before the fields. -/
def header (name : String) : List Char :=
  '\x02' :: "Device: ".toList ++ name.toList ++ lineEnd

/-- The fields of a file, each without the `*` before it and the end of the line after it. -/
def fields (f : FuseFile) : List (List Char) :=
  [['F', '0'], ['G', '0'], 'Q' :: 'F' :: f.count] ++ f.lists.map FuseList.text ++
    ['C' :: f.checksum, []]

/-- The file up to its last checksum. -/
def text (f : FuseFile) : List Char :=
  header f.deviceName ++ f.fields.flatMap (fun field => '*' :: field ++ lineEnd) ++ ['\x03']

/-- The fuses of a file: 0 wherever no list has them. -/
def fuses (f : FuseFile) : List Fuse :=
  f.lists.foldl FuseList.write (List.replicate (Text.digitsValue f.count) 0)

def bytes (cs : List Char) : List UInt8 := cs.flatMap String.utf8EncodeChar

/-- A numeral for a sum modulo 2 ^ 16. -/
def IsSum (digits : List Char) (sum : Nat) : Prop :=
  digits.length = 4 ∧ (∀ c ∈ digits, Text.isHexDigit c) ∧ Text.hexValue digits = sum

/-- The parts of a file hold the characters that they should. -/
structure Readable (f : FuseFile) : Prop where
  count : ∀ c ∈ f.count, c.isDigit
  addresses : ∀ l ∈ f.lists, ∀ c ∈ l.address, c.isDigit
  states : ∀ l ∈ f.lists, ∀ c ∈ l.states, c = '0' ∨ c = '1'
  checksum : ∀ c ∈ f.checksum, Text.isHexDigit c

/-- A file is about the given fuses, and its count and its checksum say so. -/
structure Records (f : FuseFile) (fuses : List Fuse) : Prop extends Readable f where
  size : f.count = Nat.toDigits 10 fuses.length
  rebuilt : f.fuses = fuses
  width : ∀ l ∈ f.lists,
    l.address.length = max 4 (Nat.toDigits 10 (fuses.length - 1)).length
  sum : IsSum f.checksum (fuseChecksum (f.fuses.map (· != 0)))

end FuseFile

/-! ## The reader -/

/-- The list of fuses in a field, if the field has one. -/
def FuseList.read? : List Char → Option FuseList
  | 'L' :: rest =>
    some ⟨rest.takeWhile Char.isDigit,
      (rest.dropWhile Char.isDigit).filter fun c => c == '0' || c == '1'⟩
  | _ => none

/-- The number of fuses in a field, if the field has it. -/
def readCount? : List Char → Option Nat
  | 'Q' :: 'F' :: rest => some (Text.digitsValue (rest.takeWhile Char.isDigit))
  | _ => none

/-- The fields of a file for a device of the given name: what follows the header up to `ETX`, cut
at every `*`. -/
def readFields (name : String) (file : List Char) : List (List Char) :=
  ((file.drop (FuseFile.header name).length).takeWhile (· != '\x03')).splitOn '*'

/-- The fuses that a file for a device of the given name describes. -/
def readFuses (name : String) (file : List Char) : List Fuse :=
  let fields := readFields name file
  (fields.filterMap FuseList.read?).foldl FuseList.write
    (List.replicate ((fields.findSome? readCount?).getD 0) 0)

/-! ## What is written is read -/

variable {d : Device} {fs : List Fuse} {f : FuseFile}

/-- A list of fuses is read back from its field. -/
theorem FuseList.read?_text {l : FuseList} (haddress : ∀ c ∈ l.address, c.isDigit)
    (hstates : ∀ c ∈ l.states, c = '0' ∨ c = '1') :
    FuseList.read? (l.text ++ lineEnd) = some l := by
  have htext : l.text ++ lineEnd = 'L' :: (l.address ++ ' ' :: (l.states ++ lineEnd)) := by
    simp [text]
  have hfilter : l.states.filter (fun c => c == '0' || c == '1') = l.states :=
    List.filter_eq_self.2 fun c hc => by simpa using hstates c hc
  rw [htext, read?, Text.takeWhile_append_of_head? haddress (by simp),
    List.dropWhile_append_of_pos haddress, List.dropWhile_cons_of_neg (by decide),
    List.filter_cons_of_neg (by decide), List.filter_append, hfilter]
  simp [lineEnd]

theorem readCount?_count {count : List Char} (h : ∀ c ∈ count, c.isDigit) :
    readCount? ('Q' :: 'F' :: count ++ lineEnd) = some (Text.digitsValue count) :=
  congrArg (some <| Text.digitsValue ·) (Text.takeWhile_append_of_head? h (by simp [lineEnd]))

namespace FuseFile

/-- Fields without `*` are found again by cutting at every `*`. -/
theorem splitOn_fields {cs : List Char} {fields : List (List Char)} (hcs : '*' ∉ cs)
    (h : ∀ field ∈ fields, '*' ∉ field) :
    (cs ++ fields.flatMap fun field => '*' :: field ++ lineEnd).splitOn '*' =
      cs :: fields.map (· ++ lineEnd) := by
  induction fields generalizing cs with
  | nil => simp [List.splitOn_eq_singleton hcs]
  | cons field fields ih =>
    have hfield : '*' ∉ field ++ lineEnd := by simpa [lineEnd] using h field List.mem_cons_self
    rw [List.flatMap_cons, List.cons_append, List.cons_append,
      List.splitOn_append_cons_self_of_not_mem hcs,
      ih hfield fun field' h' => h field' (List.mem_cons_of_mem _ h'), List.map_cons]

/-- Whether a character may stand in a field: it is ASCII and ends nothing. -/
def isFieldChar (c : Char) : Bool := c.toNat < 128 && c != '*' && c != '\x03'

theorem isFieldChar_of_isHexDigit {c : Char} (h : Text.isHexDigit c = true) :
    isFieldChar c = true := by
  have hstar : c ≠ '*' := by rintro rfl; cases h
  have hend : c ≠ '\x03' := by rintro rfl; cases h
  have hlt : c.toNat < 128 := by
    simp only [Text.isHexDigit, Char.isDigit, Bool.or_eq_true, Bool.and_eq_true,
      decide_eq_true_eq] at h
    rcases h with ⟨-, h⟩ | ⟨-, h⟩ <;> exact Nat.lt_of_le_of_lt h (by decide)
  simp [isFieldChar, hstar, hend, hlt]

theorem isFieldChar_of_isDigit {c : Char} (h : c.isDigit = true) : isFieldChar c = true :=
  isFieldChar_of_isHexDigit (by simp [Text.isHexDigit, h])

theorem toNat_lt_of_isFieldChar {c : Char} (h : isFieldChar c = true) : c.toNat < 128 := by
  simp only [isFieldChar, Bool.and_eq_true, decide_eq_true_eq] at h
  exact h.1.1

theorem Readable.isFieldChar_of_mem_fields (h : f.Readable) {field : List Char}
    (hfield : field ∈ f.fields) {c : Char} (hc : c ∈ field) : isFieldChar c = true := by
  simp only [fields, List.mem_append, List.mem_cons, List.mem_map, List.not_mem_nil, or_false]
    at hfield
  rcases hfield with ((rfl | rfl | rfl) | ⟨l, hl, rfl⟩) | rfl | rfl
  · have hall : ['F', '0'].all isFieldChar = true := rfl
    exact List.all_eq_true.1 hall c hc
  · have hall : ['G', '0'].all isFieldChar = true := rfl
    exact List.all_eq_true.1 hall c hc
  · simp only [List.mem_cons] at hc
    rcases hc with rfl | rfl | hc
    · rfl
    · rfl
    · exact isFieldChar_of_isDigit (h.count c hc)
  · simp only [FuseList.text, List.cons_append, List.mem_cons, List.mem_append] at hc
    rcases hc with rfl | hc | rfl | hc
    · rfl
    · exact isFieldChar_of_isDigit (h.addresses l hl c hc)
    · rfl
    · rcases h.states l hl c hc with rfl | rfl <;> rfl
  · rcases List.mem_cons.1 hc with rfl | hc
    · rfl
    · exact isFieldChar_of_isHexDigit (h.checksum c hc)
  · cases hc

/-- The fields of a file are found between the asterisks, after the header. -/
theorem Readable.readFields_text (h : f.Readable) (sum : List Char) :
    readFields f.deviceName (f.text ++ sum) = [] :: f.fields.map (· ++ lineEnd) := by
  have hstar : ∀ field ∈ f.fields, '*' ∉ field := fun field hfield hc =>
    Bool.noConfusion (h.isFieldChar_of_mem_fields hfield hc)
  have hend : ∀ c ∈ f.fields.flatMap (fun field => '*' :: field ++ lineEnd),
      (c != '\x03') = true := by
    intro c hc
    obtain ⟨field, hfield, hc⟩ := List.mem_flatMap.1 hc
    simp only [List.cons_append, List.mem_cons, List.mem_append, lineEnd, List.not_mem_nil,
      or_false] at hc
    rcases hc with rfl | hc | rfl | rfl
    · rfl
    · have := h.isFieldChar_of_mem_fields hfield hc
      exact bne_iff_ne.2 (by rintro rfl; cases this)
    · rfl
    · rfl
  have htext : f.text ++ sum = header f.deviceName ++
      (f.fields.flatMap (fun field => '*' :: field ++ lineEnd) ++ '\x03' :: sum) := by
    simp [text]
  rw [readFields, htext, List.drop_left, Text.takeWhile_append_of_head? hend (by simp)]
  exact splitOn_fields List.not_mem_nil hstar

/-- The lists of fuses are read back, and no other field is one. -/
theorem Readable.filterMap_read? (h : f.Readable) :
    ([] :: f.fields.map (· ++ lineEnd)).filterMap FuseList.read? = f.lists := by
  have hlists :
      (f.lists.map ((· ++ lineEnd) ∘ FuseList.text)).filterMap FuseList.read? = f.lists := by
    rw [List.filterMap_map, List.filterMap_congr (g := some), List.filterMap_some]
    exact fun l hl => FuseList.read?_text (h.addresses l hl) (h.states l hl)
  simp only [fields, List.map_append, List.map_cons, List.map_nil, List.map_map, List.cons_append,
    List.nil_append, List.filterMap_cons, List.filterMap_append, List.filterMap_nil]
  simpa [FuseList.read?, lineEnd] using hlists

theorem Readable.findSome?_readCount? (h : f.Readable) :
    ([] :: f.fields.map (· ++ lineEnd)).findSome? readCount? =
      some (Text.digitsValue f.count) := by
  have hread := readCount?_count h.count
  simp only [fields, List.map_append, List.map_cons, List.cons_append, List.findSome?_cons]
    at hread ⊢
  rw [hread]
  rfl

/-- A file is read as the fuses it has. -/
theorem Readable.readFuses_text (h : f.Readable) (sum : List Char) :
    readFuses f.deviceName (f.text ++ sum) = f.fuses := by
  rw [readFuses, h.readFields_text, h.filterMap_read?, h.findSome?_readCount?, Option.getD_some,
    fuses]

end FuseFile

/-! ## The lists of a file rebuild its fuses -/

namespace FuseList

/-- The fuses that a list writes. -/
def Gives (l : FuseList) (i : Nat) (fuse : Fuse) : Prop :=
  ∃ k, (l.states.map charFuse)[k]? = some fuse ∧ i = Text.digitsValue l.address + k

/-- A list that fits an array and tells the truth about it. -/
structure Agrees (l : FuseList) (fuses : List Fuse) : Prop where
  inside : Text.digitsValue l.address + l.states.length ≤ fuses.length
  true : ∀ {i fuse}, l.Gives i fuse → fuses[i]? = some fuse

/-- Lists that agree with one array may be written in any order and over each other. -/
theorem writes_foldl {lists : List FuseList} {base : List Fuse} (hlen : base.length = fs.length)
    (h : ∀ l ∈ lists, l.Agrees fs) :
    Writes (fun i fuse => ∃ l ∈ lists, l.Gives i fuse) base (lists.foldl write base) := by
  induction lists generalizing base with
  | nil => exact Writes.refl.congr (by simp)
  | cons l lists ih =>
    have hinside := (h l List.mem_cons_self).inside
    have hfirst : Writes l.Gives base (l.write base) :=
      Writes.overwrite (by simpa [hlen] using hinside)
    have hrest := ih (hfirst.length_eq.trans hlen) fun l' h' => h l' (List.mem_cons_of_mem _ h')
    refine (hfirst.trans hrest ?_).congr (by simp)
    rintro i fuse fuse' hfuse ⟨l', hl', hfuse'⟩
    have hsome := (h l List.mem_cons_self).true hfuse
    rw [(h l' (List.mem_cons_of_mem _ hl')).true hfuse'] at hsome
    exact (Option.some.inj hsome).symm

/-- The list of a field. -/
def ofField (width : Nat) (fuses : List Fuse) (f : Field) : FuseList where
  address := (Text.zeroFilled width f.first).toList
  states := (window fuses f.first (f.first + f.length)).map fuseChar

variable {width : Nat} {field : Field}

theorem charFuse_fuseChar {fuse : Fuse} (h : fuse = 0 ∨ fuse = 1) :
    charFuse (fuseChar fuse) = fuse := by
  rcases h with rfl | rfl <;> rfl

theorem address_ofField (h : 0 ≤ field.first) : (ofField width fs field).address =
    Text.padLeft width (Nat.toDigits 10 field.first.toNat) := by
  have habs : field.first.natAbs = field.first.toNat := by omega
  simp only [ofField, Text.zeroFilled, if_neg (Int.not_lt.2 h), String.toList_ofList, habs]

theorem states_ofField (hbits : ∀ fuse ∈ fs, fuse = 0 ∨ fuse = 1) :
    (ofField width fs field).states.map charFuse =
      window fs field.first (field.first + field.length) := by
  rw [ofField, List.map_map]
  refine (List.map_congr_left fun fuse h => ?_).trans (List.map_id _)
  exact charFuse_fuseChar (hbits fuse (List.mem_of_mem_take (List.mem_of_mem_drop h)))

/-- The list of a field writes the fuses of its window. -/
theorem gives_ofField (hfirst : 0 ≤ field.first) (hbits : ∀ fuse ∈ fs, fuse = 0 ∨ fuse = 1)
    {i : Nat} {fuse : Fuse} : (ofField width fs field).Gives i fuse ↔
      ∃ k, (window fs field.first (field.first + field.length))[k]? = some fuse ∧
        i = field.first.toNat + k := by
  rw [Gives, states_ofField hbits, address_ofField hfirst, Text.digitsValue_padLeft,
    Text.digitsValue_toDigits]

/-- The list of a field fits the array it was made from. -/
theorem agrees_ofField (hfirst : 0 ≤ field.first) (hbits : ∀ fuse ∈ fs, fuse = 0 ∨ fuse = 1)
    (hne : window fs field.first (field.first + field.length) ≠ []) :
    (ofField width fs field).Agrees fs where
  inside := by
    rw [address_ofField hfirst, Text.digitsValue_padLeft, Text.digitsValue_toDigits, ofField,
      List.length_map]
    exact add_length_window_le hfirst hne
  true h := by
    obtain ⟨k, hk, rfl⟩ := (gives_ofField hfirst hbits).1 h
    exact getElem?_of_window hfirst hk

end FuseList

/-- The fields of a device that have a fuse which is not 0. -/
def listedFields (p : Profile) (fuses : List Fuse) : List Field :=
  (fields p).filter fun f => !(window fuses f.first (f.first + f.length)).all (· == 0)

theorem window_ne_nil_of_mem_listedFields {p : Profile} {field : Field}
    (h : field ∈ listedFields p fs) : window fs field.first (field.first + field.length) ≠ [] := by
  intro hnil
  have := (List.mem_filter.1 h).2
  rw [hnil] at this
  cases this

/-- The fuses that are not listed are 0, and those that are listed are written back. -/
theorem foldl_write_listedFields {width : Nat} (hshared : ∀ row ∈ d.profile.sharedRows, 0 ≤ row.2)
    (hlen : (fs.length : Int) = d.profile.fuseCount) (hbits : ∀ fuse ∈ fs, fuse = 0 ∨ fuse = 1) :
    ((listedFields d.profile fs).map (FuseList.ofField width fs)).foldl FuseList.write
      (List.replicate fs.length 0) = fs := by
  have hfirst : ∀ field ∈ listedFields d.profile fs, 0 ≤ field.first := fun field h =>
    first_nonneg_of_mem_fields d.geometry hshared (List.mem_filter.1 h).1
  have hagrees : ∀ l ∈ (listedFields d.profile fs).map (FuseList.ofField width fs),
      l.Agrees fs := by
    intro l hl
    obtain ⟨field, hfield, rfl⟩ := List.mem_map.1 hl
    exact FuseList.agrees_ofField (hfirst field hfield) hbits
      (window_ne_nil_of_mem_listedFields hfield)
  have hwrites := FuseList.writes_foldl (List.length_replicate (n := fs.length) (a := 0)) hagrees
  refine List.ext_getElem? fun i => ?_
  by_cases hi : i < fs.length
  · by_cases hgiven : ∃ fuse, ∃ l ∈ (listedFields d.profile fs).map (FuseList.ofField width fs),
        l.Gives i fuse
    · obtain ⟨fuse, l, hl, hfuse⟩ := hgiven
      rw [hwrites.given ⟨l, hl, hfuse⟩, (hagrees l hl).true hfuse]
    · -- a field that has this fuse and is not listed has nothing but zeros
      rw [hwrites.kept fun fuse h => hgiven ⟨fuse, h⟩, List.getElem?_replicate_of_lt hi]
      obtain ⟨field, hfield, hlow, hhigh⟩ := exists_field_contains (p := d.profile) (i := i)
        (Int.natCast_nonneg i) (by omega)
      have hpos := first_nonneg_of_mem_fields d.geometry hshared hfield
      have hwindow := getElem?_window (l := fs) hpos hlow hhigh
      rw [List.getElem?_eq_getElem hi] at hwindow
      have hzero : (window fs field.first (field.first + field.length)).all (· == 0) = true := by
        by_contra hne
        have hlisted : field ∈ listedFields d.profile fs :=
          List.mem_filter.2 ⟨hfield, by simpa using hne⟩
        exact hgiven ⟨fs[i], _, List.mem_map_of_mem hlisted,
          (FuseList.gives_ofField hpos hbits).2 ⟨_, hwindow, by omega⟩⟩
      have hmem := List.all_eq_true.1 hzero _ (List.mem_of_getElem? hwindow)
      rw [List.getElem?_eq_getElem hi, eq_of_beq hmem]
  · rw [List.getElem?_eq_none (by rw [hwrites.length_eq, List.length_replicate]; omega),
      List.getElem?_eq_none (by omega)]

/-! ## The file of a device -/

namespace FuseFile

/-- The file of a device. -/
def ofFuses (p : Profile) (fuses : List Fuse) : FuseFile where
  deviceName := p.deviceName
  count := Nat.toDigits 10 fuses.length
  lists := (listedFields p fuses).map (FuseList.ofField (addressWidth fuses.length) fuses)
  checksum := (Text.hex 4 (fuseChecksum (fuses.map (· != 0)))).toList

theorem checksum_ofFuses (p : Profile) : (ofFuses p fs).checksum =
    (Text.hex 4 (fuseChecksum (fs.map (· != 0)))).toList := by
  rw [ofFuses]

/-- The lines of fields in which all fuses are 0 are left out. -/
theorem flatMap_fieldLine (width : Nat) (fields : List Field) :
    fields.flatMap (fieldLine width fs) =
      ((fields.filter fun f => !(window fs f.first (f.first + f.length)).all (· == 0)).map
        (FuseList.ofField width fs)).flatMap fun l => '*' :: l.text ++ lineEnd := by
  induction fields with
  | nil => rfl
  | cons field fields ih =>
    rw [List.flatMap_cons, ih, List.filter_cons, fieldLine]
    by_cases h : (window fs field.first (field.first + field.length)).all (· == 0) = true
    · rw [if_pos h, h]
      rfl
    · rw [Bool.not_eq_true] at h
      simp [h, FuseList.text, FuseList.ofField]

/-- The file that is written is the one that `ofFuses` describes. -/
theorem body_eq_text (hlen : (fs.length : Int) = d.profile.fuseCount) :
    body d.profile fs = (ofFuses d.profile fs).text := by
  have hcount : (fs.length : Int).repr.toList = Nat.toDigits 10 fs.length := Nat.toList_repr
  have htext : ∀ s : String, toString s = s := fun _ => rfl
  rw [body, flatMap_fieldLine, text, ← hlen]
  simp [ofFuses, fields, header, listedFields, List.flatMap_append, List.flatMap_map, hcount,
    htext]

/-- The addresses of listed fields have the width that the last fuse needs. -/
theorem length_address {field : Field} (hshared : ∀ row ∈ d.profile.sharedRows, 0 ≤ row.2)
    (h : field ∈ listedFields d.profile fs) :
    (FuseList.ofField (addressWidth fs.length) fs field).address.length =
      max 4 (Nat.toDigits 10 (fs.length - 1)).length := by
  have hpos := first_nonneg_of_mem_fields d.geometry hshared (List.mem_filter.1 h).1
  have hne := window_ne_nil_of_mem_listedFields h
  have hlast : field.first.toNat ≤ fs.length - 1 ∧ 1 ≤ fs.length := by
    have := add_length_window_le hpos hne
    have := List.length_pos_iff.2 hne
    omega
  have hwidth : addressWidth fs.length = max 4 (Nat.toDigits 10 (fs.length - 1)).length := by
    have hcast : ((fs.length : Int) - 1) = ((fs.length - 1 : Nat) : Int) := by omega
    have hdigits : (toString ((fs.length - 1 : Nat) : Int)).toList =
        Nat.toDigits 10 (fs.length - 1) := Nat.toList_repr
    rw [addressWidth, hcast, ← String.length_toList, hdigits]
  rw [FuseList.address_ofField hpos, ← hwidth]
  refine Text.length_padLeft ?_
  rw [hwidth]
  exact Nat.le_trans (Text.length_toDigits_mono hlast.1) (Nat.le_max_right _ _)

theorem sum16_lt (ns : List Nat) : sum16 ns < 65536 := Nat.mod_lt _ (by decide)

theorem isSum_hex {n : Nat} (h : n < 65536) : IsSum (Text.hex 4 n).toList n :=
  ⟨Text.length_hex_four h, fun _ => Text.isHexDigit_of_mem_hex, Text.hexValue_hex⟩

/-- An ASCII character is one byte. -/
theorem toNat_utf8EncodeChar {c : Char} (h : c.toNat < 128) :
    (String.utf8EncodeChar c).map UInt8.toNat = [c.toNat] := by
  have hsize : c.utf8Size = 1 := by
    rw [Char.utf8Size_eq_one_iff, UInt32.le_iff_toNat_le]
    exact Nat.le_of_lt_succ h
  have hmod : c.toNat % 256 = c.toNat := by omega
  rw [String.utf8EncodeChar_eq_singleton hsize]
  exact congrArg (fun n => [n]) hmod

theorem toNat_bytes {cs : List Char} (h : ∀ c ∈ cs, c.toNat < 128) :
    (bytes cs).map UInt8.toNat = cs.map Char.toNat := by
  induction cs with
  | nil => rfl
  | cons c cs ih =>
    have hc := toNat_utf8EncodeChar (h c List.mem_cons_self)
    have hcs := ih fun c' h' => h c' (List.mem_cons_of_mem _ h')
    rw [bytes, List.flatMap_cons, List.map_append, hc]
    exact congrArg (c.toNat :: ·) hcs

theorem Readable.ascii_text (h : f.Readable)
    (hname : ∀ c ∈ f.deviceName.toList, c.toNat < 128) : ∀ c ∈ f.text, c.toNat < 128 := by
  have htext : ∀ c ∈ "Device: ".toList, c.toNat < 128 := by simp
  have hline : ∀ c ∈ lineEnd, c.toNat < 128 := by simp [lineEnd]
  intro c hc
  simp only [text, header, List.cons_append, List.mem_append, List.mem_cons, List.mem_flatMap,
    List.not_mem_nil, or_false] at hc
  rcases hc with rfl | (((hc | hc) | hc) | ⟨field, hfield, rfl | hc | hc⟩) | rfl
  · decide
  · exact htext c hc
  · exact hname c hc
  · exact hline c hc
  · decide
  · exact toNat_lt_of_isFieldChar (h.isFieldChar_of_mem_fields hfield hc)
  · exact hline c hc
  · decide

/-! ## Files that are made -/

theorem readable_ofFuses (hshared : ∀ row ∈ d.profile.sharedRows, 0 ≤ row.2) :
    (ofFuses d.profile fs).Readable where
  count _ := Nat.isDigit_of_mem_toDigits (by decide) (by decide)
  addresses l hl c hc := by
    obtain ⟨field, hfield, rfl⟩ := List.mem_map.1 hl
    have hpos := first_nonneg_of_mem_fields d.geometry hshared (List.mem_filter.1 hfield).1
    rw [FuseList.address_ofField hpos] at hc
    exact Text.isDigit_of_mem_padLeft_toDigits hc
  states l hl c hc := by
    obtain ⟨field, hfield, rfl⟩ := List.mem_map.1 hl
    obtain ⟨fuse, -, rfl⟩ := List.mem_map.1 hc
    by_cases h : fuse = 0 <;> simp [fuseChar, h]
  checksum c hc := by
    rw [checksum_ofFuses] at hc
    exact Text.isHexDigit_of_mem_hex hc

/-- The file tells the truth about the fuses. -/
theorem records_ofFuses (hshared : ∀ row ∈ d.profile.sharedRows, 0 ≤ row.2)
    (hlen : (fs.length : Int) = d.profile.fuseCount) (hbits : ∀ fuse ∈ fs, fuse = 0 ∨ fuse = 1) :
    (ofFuses d.profile fs).Records fs := by
  have hrebuilt : (ofFuses d.profile fs).fuses = fs := by
    rw [fuses, ofFuses, Text.digitsValue_toDigits]
    exact foldl_write_listedFields hshared hlen hbits
  refine ⟨readable_ofFuses hshared, rfl, hrebuilt, ?_, ?_⟩
  · intro l hl
    obtain ⟨field, hfield, rfl⟩ := List.mem_map.1 hl
    exact length_address hshared hfield
  · have hlt : fuseChecksum (fs.map (· != 0)) < 65536 := sum16_lt _
    rw [hrebuilt, checksum_ofFuses]
    exact isSum_hex hlt

end FuseFile

/-- Only the number of fuses and the device name can be wrong. -/
theorem render_eq_ok_iff {file : String} : render d fs = .ok file ↔
    (fs.length : Int) = d.profile.fuseCount ∧
      (∀ c ∈ d.profile.deviceName.toList, c.toNat < 128) ∧
        file = String.ofList ((FuseFile.ofFuses d.profile fs).text ++
          (Text.hex 4 (textChecksum (FuseFile.ofFuses d.profile fs).text)).toList) := by
  simp only [render, ne_eq, ite_error_eq_ok_iff, Classical.not_not, List.all_eq_true,
    decide_eq_true_eq]
  refine and_congr_right fun hlen => and_congr_right fun hname => ?_
  rw [FuseFile.body_eq_text hlen, String.ofList_append, String.ofList_toList, Except.ok.injEq,
    eq_comm]

/-- A file can be read back to exactly the fuses it was made of: it consists of the header, the
fields and the checksum of the text, and its lists rebuild the fuses. -/
theorem render_records (hname : ∀ c ∈ d.profile.deviceName.toList, c.toNat < 128)
    (hshared : ∀ row ∈ d.profile.sharedRows, 0 ≤ row.2)
    (hlen : (fs.length : Int) = d.profile.fuseCount) (hbits : ∀ fuse ∈ fs, fuse = 0 ∨ fuse = 1) :
    ∃ (f : FuseFile) (sum : List Char), render d fs = .ok (String.ofList (f.text ++ sum)) ∧
      f.deviceName = d.profile.deviceName ∧ f.Records fs ∧
        FuseFile.IsSum sum (sum16 ((FuseFile.bytes f.text).map UInt8.toNat)) ∧
          readFuses d.profile.deviceName (f.text ++ sum) = fs := by
  have hrecords := FuseFile.records_ofFuses hshared hlen hbits
  refine ⟨.ofFuses d.profile fs, _, render_eq_ok_iff.2 ⟨hlen, hname, rfl⟩, rfl, hrecords, ?_, ?_⟩
  · rw [FuseFile.toNat_bytes (hrecords.ascii_text hname)]
    exact FuseFile.isSum_hex (FuseFile.sum16_lt _)
  · exact (hrecords.readFuses_text _).trans hrecords.rebuilt

theorem render_records_small : ∃ (f : FuseFile) (sum : List Char),
    render Device.small (List.replicate 25 1 ++ [0, 1, 0, 0, 1]) =
        .ok (String.ofList (f.text ++ sum)) ∧
      f.deviceName = "SMALL" ∧ f.Records (List.replicate 25 1 ++ [0, 1, 0, 0, 1]) ∧
        FuseFile.IsSum sum (sum16 ((FuseFile.bytes f.text).map UInt8.toNat)) ∧
          readFuses "SMALL" (f.text ++ sum) = List.replicate 25 1 ++ [0, 1, 0, 0, 1] :=
  render_records (d := Device.small) (by simp [Device.small]) (by decide) (by decide) (by simp)

end FuseMap.Jedec
