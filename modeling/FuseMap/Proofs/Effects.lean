import FuseMap.Proofs.Exchange
import FuseMap.Proofs.Unreported

/-! # What a job can do

A job reads until it has all it needs, and then writes one file or two. `Ends` lists how it can end,
with the file system it leaves, and `perform_ends` says that there are no other ways. What a session
does is described by `Ensures`, and by `Reads` as long as it writes nothing.
-/

namespace FuseMap.Command

/-! ## Files -/

/-- A part of a path holds a null character. -/
def Path.HasNull (p : Path) : Prop := ∃ part ∈ p.parts, '\x00' ∈ part.toList

namespace FileSystem

variable {fs fs' : FileSystem} {p place : Path} {bytes : ByteArray} {e : FileError}

/-- A file holds a text, here with one kind of line end. -/
def HasText (fs : FileSystem) (p : Path) (text : List Char) : Prop :=
  ∃ bytes s, fs.read p = .ok bytes ∧ String.fromUTF8? bytes = some s ∧
    text = Text.unifyNewlines s.toList

/-- A file holds bytes that are no text. -/
def NotText (fs : FileSystem) (p : Path) : Prop :=
  ∃ bytes, fs.read p = .ok bytes ∧ String.fromUTF8? bytes = none

theorem failsOnly_follow (fs : FileSystem) (place : Path) (parts : List String) :
    FailsOnly (· ≠ .nullInPath) (fs.follow place parts) := by
  induction parts generalizing place with
  | nil => exact .ok _
  | cons part parts ih =>
    refine .ite (fun _ => .error (by simp)) fun _ => .ite (fun _ => .error (by simp)) fun _ => ?_
    exact .ite (fun _ => .error (by simp)) fun _ => ih _

/-- Null characters are the only reason for the error that names them. -/
theorem failsOnly_locate (fs : FileSystem) (p : Path) :
    FailsOnly (fun e => e = .nullInPath → p.HasNull) (fs.locate p) := by
  refine .ite (fun hnull => .error fun _ => ?_) fun _ => ?_
  · simpa [Path.HasNull] using hnull
  · refine .ite (fun _ => .error (by simp)) fun _ => ?_
    exact (failsOnly_follow _ _ _).mono fun e hne he => absurd he hne

theorem failsOnly_read (fs : FileSystem) (p : Path) :
    FailsOnly (fun e => e = .nullInPath → p.HasNull) (fs.read p) := by
  refine (failsOnly_locate fs p).bind fun place _ => ?_
  split
  · exact .ok _
  · exact .error (by split <;> simp)

theorem failsOnly_isFile (fs : FileSystem) (p : Path) :
    FailsOnly (fun e => e = .nullInPath → p.HasNull) (fs.isFile p) := by
  unfold isFile
  split
  · exact .ok _
  · exact .error (by simp)
  · exact .ok _

theorem failsOnly_write (fs : FileSystem) (p : Path) (bytes : ByteArray) :
    FailsOnly (fun e => e = .nullInPath → p.HasNull) (fs.write p bytes) := by
  refine (failsOnly_locate fs p).bind fun place _ => ?_
  exact .ite (fun _ => .error (by simp)) fun _ => .ok _

/-- What a successful write did: one place has new content. -/
theorem exists_writable_of_write (h : fs.write p bytes = .ok fs') :
    ∃ place, fs.Writable p place ∧ fs' = fs.put place bytes := by
  simp only [write, throw_eq_error, error_bind, bind_eq_ok_iff, ite_error_eq_ok_iff,
    pure_eq_ok_iff, Bool.not_eq_true] at h
  obtain ⟨place, hplace, hfile, rfl⟩ := h
  exact ⟨place, ⟨hplace, hfile⟩, rfl⟩

/-- A write fails only if there is no place for it. -/
theorem not_writable_of_write (h : fs.write p bytes = .error e) (place : Path) :
    ¬ fs.Writable p place := by
  intro hplace
  rw [write_eq_put hplace] at h
  cases h

end FileSystem

/-! ## Jobs -/

namespace Job

def input : Job → Path
  | .compile source _ _ => .ofString source
  | .assemble tableFile _ _ => .ofString tableFile
  | .tabulate source _ _ => .ofString source

def output : Job → Path
  | .compile _ fuseFile _ => .ofString fuseFile
  | .assemble _ fuseFile _ => .ofString fuseFile
  | .tabulate _ tableFile _ => .ofString tableFile

/-- The listing that a job writes after its fuse file, if it is wanted. -/
def listing? (o : Options) : Job → Option Path
  | .tabulate .. => none
  | j => if o.listing then some (Session.listingPath j.output) else none

/-- The device that a job is for, if one is given. -/
def device? : Job → Option String
  | .compile _ _ device | .assemble _ _ device => some device
  | .tabulate _ _ device => device

variable {setting : Setting} {o : Options} {j : Job} {p : Path}

theorem input_mem_paths : j.input ∈ j.paths setting o := by
  cases j <;> simp [paths, input]

theorem output_mem_paths : j.output ∈ j.paths setting o := by
  cases j <;> simp [paths, output]

theorem listing_mem_paths (h : j.listing? o = some p) : p ∈ j.paths setting o := by
  cases j with
  | tabulate => cases h
  | compile | assemble =>
    simp only [listing?, Option.ite_none_right_eq_some, Option.some.injEq] at h
    simp [paths, output, ← h.2, Session.listingPath]

end Job

namespace Session

open FileSystem

/-- A profile file has a device under an identifier. -/
def Offers (setting : Setting) (o : Options) (files : FileSystem) (identifier : String)
    (d : Device) : Prop :=
  ∃ name p text devices, o.devices = some name ∧ p ∈ profilePaths setting name ∧
    files.HasText p text ∧ (Device.loadWithin setting.limits p.text text).devices = .ok devices ∧
    Device.select devices identifier = .ok d

/-- Why a job ends by an error that is not reported. -/
inductive Unreported (setting : Setting) (o : Options) (j : Job) (files : FileSystem) :
    Error → Prop
  | input : files.NotText j.input → Unreported setting o j files .notUtf8
  | profiles {name : String} {p : Path} : o.devices = some name → p ∈ profilePaths setting name →
    files.NotText p → Unreported setting o j files .notUtf8
  | path {p : Path} : p ∈ j.paths setting o → p.HasNull → Unreported setting o j files .nullInPath
  | unnamed : o.devices = none → Unreported setting o j files .noProfileName
  /-- The profile file holds an infinite number, an identifier that cannot be printed or a profile
  that is refused with too long a number, or it exceeds the limits of the reader. -/
  | loading {name : String} {p : Path} {text : List Char} {e : Error} : o.devices = some name →
    p ∈ profilePaths setting name → files.HasText p text →
    Device.Unloadable setting.limits p.text text e → Unreported setting o j files e
  | table {text : List Char} {line : Nat} : files.HasText j.input text →
    Design.Overflows (String.ofList text) →
    Unreported setting o j files (.design ⟨.tableTooLarge, line⟩)
  | number {text : List Char} {line : Nat} : files.HasText j.input text →
    Design.DeclaresLongNumber (String.ofList text) →
    Unreported setting o j files (.design ⟨.numberTooLong, line⟩)
  /-- The functions of a design are nested deeper than the stack has room for. -/
  | stack {text : List Char} {line : Nat} : files.HasText j.input text →
    setting.exhausted? text = some line → setting.room < text.countP Design.isNesting →
    Unreported setting o j files (.design ⟨.stackExhausted, line⟩)
  /-- The table file exceeds the limits of the reader. -/
  | tables {tableFile fuseFile device : String} {text : List Char} {e : Json.SyntaxError} :
    j = .assemble tableFile fuseFile device → files.HasText j.input text →
    Json.parseWithin setting.limits text = .error e → e.fault.isLimit = true →
    Unreported setting o j files (.tablesNotJson tableFile e)
  | device {identifier : String} {d : Device} {e : Error} : j.device? = some identifier →
    Offers setting o files identifier d → d.Unwritable e → Unreported setting o j files e

/-- A failure is reported, or there is a known reason why it is not. -/
def Explained (setting : Setting) (o : Options) (j : Job) (files : FileSystem) (f : Failure) :
    Prop :=
  ∀ e, f = .failed e → e.Shown ∨ Unreported setting o j files e

/-- How a job can end, with the file system that it leaves. -/
inductive Ends (setting : Setting) (o : Options) (j : Job) (files : FileSystem) :
    Except Failure Unit → FileSystem → Prop
  /-- The job failed before it wrote anything. -/
  | failed {f : Failure} : Explained setting o j files f → Ends setting o j files (.error f) files
  | written {text : List Char} {place : Path} {bytes : ByteArray} : files.HasText j.input text →
    j.listing? o = none → files.Writable j.output place →
    Ends setting o j files (.ok ()) (files.put place bytes)
  | listed {text : List Char} {p place place' : Path} {bytes bytes' : ByteArray} :
    files.HasText j.input text → j.listing? o = some p → files.Writable j.output place →
    (files.put place bytes).Writable p place' →
    Ends setting o j files (.ok ()) ((files.put place bytes).put place' bytes')
  /-- The fuse file was written, but its listing could not be. -/
  | unlisted {text : List Char} {p place : Path} {bytes : ByteArray} {f : Failure} :
    files.HasText j.input text → j.listing? o = some p → files.Writable j.output place →
    (∀ place', ¬ (files.put place bytes).Writable p place') → Explained setting o j files f →
    Ends setting o j files (.error f) (files.put place bytes)

/-! ## What sessions ensure -/

section
variable {α β : Type} {x : Session α} {f : α → Session β} {files : FileSystem}

/-- A session ends with a result and a file system that `Q` relates. It prints no errors. -/
def Ensures (files : FileSystem) (x : Session α) (Q : Except Failure α → FileSystem → Prop) :
    Prop :=
  ∀ w, w.files = files →
    Q (x.result w).1 (x.result w).2.files ∧ (x.result w).2.errors = w.errors

/-- A session leaves the files as they are, and it has a result that `Ok` allows or a failure that
`Err` allows. -/
def Reads (files : FileSystem) (x : Session α) (Ok : α → Prop) (Err : Failure → Prop) : Prop :=
  Ensures files x fun r fs => fs = files ∧
    match r with
    | .ok a => Ok a
    | .error f => Err f

variable {Q : Except Failure α → FileSystem → Prop} {R : Except Failure β → FileSystem → Prop}
  {Ok : α → Prop} {Ok' : β → Prop} {Err : Failure → Prop}

/-- The rule for steps one after the other, with the file system between them. -/
theorem Ensures.bind (hx : Ensures files x Q) (hok : ∀ a fs, Q (.ok a) fs → Ensures fs (f a) R)
    (herror : ∀ e fs, Q (.error e) fs → R (.error e) fs) : Ensures files (x >>= f) R := by
  intro w hw
  have hresult := hx w hw
  rw [result_bind]
  rcases hw' : x.result w with ⟨r, w'⟩
  rw [hw'] at hresult
  obtain ⟨hQ, herrors⟩ := hresult
  cases r with
  | ok a =>
    obtain ⟨hR, herrors'⟩ := hok a w'.files hQ w' rfl
    exact ⟨hR, herrors'.trans herrors⟩
  | error e => exact ⟨herror e w'.files hQ, herrors⟩

/-- After a step that only reads, the file system is as it was. -/
theorem Reads.ensures_bind (hx : Reads files x Ok Err) (hok : ∀ a, Ok a → Ensures files (f a) R)
    (herror : ∀ e, Err e → R (.error e) files) : Ensures files (x >>= f) R :=
  Ensures.bind hx (fun a _ ⟨hfs, ha⟩ => hfs ▸ hok a ha) fun e _ ⟨hfs, he⟩ => hfs ▸ herror e he

theorem Reads.bind (hx : Reads files x Ok Err) (hf : ∀ a, Ok a → Reads files (f a) Ok' Err) :
    Reads files (x >>= f) Ok' Err :=
  hx.ensures_bind hf fun _ he => ⟨rfl, he⟩

theorem Reads.imp (hx : Reads files x Ok Err) {Ok' : α → Prop} (h : ∀ a, Ok a → Ok' a) :
    Reads files x Ok' Err := by
  intro w hw
  obtain ⟨⟨hfiles, hresult⟩, herrors⟩ := hx w hw
  refine ⟨⟨hfiles, ?_⟩, herrors⟩
  cases hr : (x.result w).1 with
  | ok a => exact h a (by simpa only [hr] using hresult)
  | error e => simpa only [hr] using hresult

theorem ensures_get_bind {f : World → Session β}
    (h : ∀ w, w.files = files → Ensures files (f w) R) : Ensures files (get >>= f) R :=
  fun w hw => h w hw w hw

theorem ensures_pure {a : α} (h : Q (.ok a) files) : Ensures files (pure a) Q := by
  rintro w rfl
  exact ⟨h, rfl⟩

theorem ensures_say {Q : Except Failure Unit → FileSystem → Prop} (h : Q (.ok ()) files)
    (line : String) : Ensures files (say line) Q := by
  rintro w rfl
  exact ⟨h, rfl⟩

theorem reads_pure {a : α} (h : Ok a) : Reads files (pure a) Ok Err :=
  ensures_pure ⟨rfl, h⟩

theorem reads_throw {e : Failure} (h : Err e) : Reads files (throw e : Session α) Ok Err :=
  fun _ hw => ⟨⟨hw, h⟩, rfl⟩

theorem reads_say (line : String) : Reads files (say line) (fun _ => True) Err :=
  ensures_say ⟨rfl, trivial⟩ line

theorem reads_forM_say (lines : List String) (text : String → String) :
    Reads files (lines.forM fun line => say (text line)) (fun _ => True) Err := by
  induction lines with
  | nil => exact reads_pure trivial
  | cons line lines ih => exact (reads_say _).bind fun _ _ => ih

theorem reads_check {r : Except Error α} (h : FailsOnly (fun e => Err (.failed e)) r) :
    Reads files (check r) (fun a => r = .ok a) Err := by
  cases r with
  | ok a => exact reads_pure rfl
  | error e => exact reads_throw (h e rfl)

theorem ensures_check_bind {r : Except Error α} {a : α} (hr : r = .ok a)
    (hf : Ensures files (f a) R) : Ensures files (check r >>= f) R := by
  rw [hr]
  exact hf

theorem reads_access {r : Except FileError α} {p : Path}
    (h : FailsOnly (fun e => Err (fileFailure e p)) r) :
    Reads files (access p r) (fun a => r = .ok a) Err := by
  cases r with
  | ok a => exact reads_pure rfl
  | error e => exact reads_throw (h e rfl)

/-- A line at the end changes nothing. -/
theorem Ensures.then_say {x : Session Unit} {Q : Except Failure Unit → FileSystem → Prop}
    (hx : Ensures files x Q) (line : String) : Ensures files (x >>= fun _ => say line) Q :=
  hx.bind (fun _ _ hfs => ensures_say hfs line) fun _ _ he => he

end

/-! ## The steps of a job -/

section
variable {setting : Setting} {o : Options} {j : Job} {files : FileSystem} {p : Path} {e : Error}

theorem Explained.of_failed (h : e.Shown ∨ Unreported setting o j files e) :
    Explained setting o j files (.failed e) := by
  rintro _ ⟨⟩
  exact h

theorem explained_of_reports {α : Type} {r : Except Error α} (h : Reports r) :
    FailsOnly (fun e => Explained setting o j files (.failed e)) r :=
  h.mono fun _ he => .of_failed (.inl he)

/-- A file that cannot be opened is reported, unless its path has a null character. -/
theorem explained_fileFailure (hp : p ∈ j.paths setting o) {e : FileError}
    (h : e = .nullInPath → p.HasNull) : Explained setting o j files (fileFailure e p) := by
  intro e' he'
  unfold fileFailure at he'
  split at he'
  · cases he'
    exact .inr (.path hp (h rfl))
  · cases he'

theorem reads_decode {bytes : ByteArray} (hbytes : files.read p = .ok bytes)
    (htext : files.NotText p → Unreported setting o j files .notUtf8) :
    Reads files (decode bytes) (files.HasText p) (Explained setting o j files) := by
  unfold decode
  split
  · next s hs => exact reads_pure ⟨bytes, s, hbytes, hs, rfl⟩
  · next hnone => exact reads_throw (.of_failed (.inr (htext ⟨bytes, hbytes, hnone⟩)))

theorem reads_readText (hp : p ∈ j.paths setting o)
    (htext : files.NotText p → Unreported setting o j files .notUtf8) :
    Reads files (readText p) (files.HasText p) (Explained setting o j files) := by
  refine ensures_get_bind fun w hw => ?_
  rw [hw]
  refine (reads_access ?_).bind fun bytes hbytes => reads_decode hbytes htext
  exact (failsOnly_read files p).mono fun _ => explained_fileFailure hp

/-- Reading the input of a job gives its text, or a failure that is explained. -/
theorem reads_input {file : String} (hfile : j.input = .ofString file) :
    Reads files (readText (.ofString file)) (files.HasText j.input)
      (Explained setting o j files) := by
  rw [← hfile]
  exact reads_readText Job.input_mem_paths .input

theorem mem_paths_of_devices {name : String} (hname : o.devices = some name)
    (hp : p ∈ profilePaths setting name) : p ∈ j.paths setting o := by
  simp only [Job.paths, hname]
  exact List.mem_append_left _ hp

/-- The profile file is one of the two that are looked for. -/
theorem reads_profileFile {name : String} (hname : o.devices = some name) :
    Reads files (profileFile setting name) (· ∈ profilePaths setting name)
      (Explained setting o j files) := by
  have hpath : Path.ofString name ∈ profilePaths setting name := List.mem_cons_self
  refine ensures_get_bind fun w _ => ?_
  refine (reads_access ((failsOnly_isFile _ _).mono fun _ =>
    explained_fileFailure (mem_paths_of_devices hname hpath))).bind fun found _ => ?_
  cases found with
  | true => exact reads_pure hpath
  | false => exact reads_pure (List.mem_cons_of_mem _ List.mem_cons_self)

theorem reads_loadDevices (identifier : String) :
    Reads files (loadDevices setting o.devices)
      (fun devices => ∀ d, Device.select devices identifier = .ok d →
        Offers setting o files identifier d) (Explained setting o j files) := by
  unfold loadDevices
  refine (reads_say _).bind fun _ _ => ?_
  cases hname : o.devices with
  | none => exact reads_throw (.of_failed (.inr (.unnamed hname)))
  | some name =>
    refine (reads_profileFile hname).bind fun p hp => ensures_get_bind fun w hw => ?_
    rw [hw]
    split
    · exact (reads_say _).bind fun _ _ => reads_pure fun d hd => nomatch hd
    · refine (reads_access ((failsOnly_read files p).mono fun _ =>
        explained_fileFailure (mem_paths_of_devices hname hp))).bind fun bytes hbytes => ?_
      refine (reads_decode hbytes (.profiles hname hp)).bind fun text htext => ?_
      refine (reads_forM_say _ _).bind fun _ _ => Reads.imp (reads_check fun e he => ?_) ?_
      · exact .of_failed ((Device.loadWithin_error he).imp_right (.loading hname hp htext))
      · exact fun devices hdevices d hd => ⟨name, p, text, devices, hname, hp, htext, hdevices, hd⟩

/-- A device that is selected stands in the profile file that was read. -/
theorem reads_selectDevice (identifier : String) :
    Reads files (selectDevice setting o.devices identifier) (Offers setting o files identifier)
      (Explained setting o j files) := by
  refine (reads_loadDevices identifier).bind fun devices hdevices => ?_
  have hreports : Reports (Device.select devices identifier) := by
    unfold Device.select
    split
    · exact .ok _
    · exact .error (.of_plain rfl rfl)
  refine (reads_check (explained_of_reports hreports)).bind fun d hd => ?_
  exact (reads_say _).bind fun _ _ => reads_pure (hdevices d hd)

/-- The tables of a design are complete, and their pins can be written. -/
theorem asRead_of_parse {text : String} {design : Design} (h : Design.parse text = .ok design) :
    TruthTable.AsRead design.tables where
  complete := (Design.wellFormed_of_parse h).complete
  short _ ht := Design.isShort_of_parse h ht

/-- A design text fails with a report, unless it is too large. -/
theorem shown_or_unreported_of_parse {text : List Char} (htext : files.HasText j.input text)
    (h : (Design.parse (String.ofList text)).mapError .design = .error e) :
    e.Shown ∨ Unreported setting o j files e := by
  obtain ⟨⟨fault, line⟩, hparse, rfl⟩ := mapError_eq_error_iff.1 h
  cases hreported : fault.isReported with
  | true => exact .inl ⟨hreported, Design.isShort_of_parse_error hparse⟩
  | false =>
    obtain ⟨rfl, hlarge⟩ | ⟨rfl, hlong⟩ := Design.excess_of_parse hparse hreported
    · exact .inr (.table htext hlarge)
    · exact .inr (.number htext hlong)

/-- Reading a design fails only in ways that are explained, and its tables are such as are read. -/
theorem reads_readDesign {source : String} (hsource : j.input = .ofString source) :
    Reads files (readDesign setting source)
      (fun design => TruthTable.AsRead design.tables ∧ ∃ text, files.HasText j.input text)
      (Explained setting o j files) := by
  refine (reads_input hsource).bind fun text htext => ?_
  cases hroom : setting.exhausted? text with
  | some line =>
    exact reads_throw (.of_failed (.inr (.stack htext hroom (setting.room_lt hroom))))
  | none =>
    refine Reads.imp (reads_check fun _ he => .of_failed (shown_or_unreported_of_parse htext he)) ?_
    exact fun design hdesign => ⟨asRead_of_parse (mapError_eq_ok_iff.1 hdesign), text, htext⟩

/-- Reading that fails is the end of the job. -/
theorem Reads.ends_bind {α : Type} {x : Session α} {f : α → Session Unit} {Ok : α → Prop}
    (hx : Reads files x Ok (Explained setting o j files))
    (hf : ∀ a, Ok a → Ensures files (f a) (Ends setting o j files)) :
    Ensures files (x >>= f) (Ends setting o j files) :=
  hx.ensures_bind hf fun _ => .failed

/-- A job goes on after a file that it writes, or it ends there. -/
theorem ends_writeText_bind (hp : p ∈ j.paths setting o) {fs : FileSystem} {text : String}
    {f : Unit → Session Unit}
    (hok : ∀ place, fs.Writable p place →
      Ensures (fs.put place text.toUTF8) (f ()) (Ends setting o j files))
    (herror : ∀ e, (∀ place, ¬ fs.Writable p place) → Explained setting o j files e →
      Ends setting o j files (.error e) fs) :
    Ensures fs (writeText p text >>= f) (Ends setting o j files) := by
  intro w hw
  rw [writeText, bind_assoc]
  refine ensures_get_bind (fun w hw => ?_) w hw
  rw [hw]
  cases hwrite : fs.write p text.toUTF8 with
  | ok fs' =>
    obtain ⟨place, hplace, rfl⟩ := exists_writable_of_write hwrite
    exact fun w _ => hok place hplace { w with files := fs.put place text.toUTF8 } rfl
  | error e =>
    rintro w rfl
    exact ⟨herror _ (not_writable_of_write hwrite)
      (explained_fileFailure hp (failsOnly_write _ p _ e hwrite)), rfl⟩

/-- The last step of a job without a listing: its output is written, or nothing is. -/
theorem ensures_writeLast {text : List Char} {file : String} (htext : files.HasText j.input text)
    (houtput : j.output = .ofString file) (hlisting : j.listing? o = none)
    (content message : String) :
    Ensures files (writeText (.ofString file) content >>= fun _ => say message)
      (Ends setting o j files) := by
  rw [← houtput]
  refine ends_writeText_bind Job.output_mem_paths (fun place hplace => ?_) fun _ _ => .failed
  exact ensures_say (.written htext hlisting hplace) message

section
variable {d : Device} {tables : List TruthTable} {sums : List SumOfProducts}
  {blocks : List FuseBlock} {text : List Char} {fuseFile device : String}

/-- After the fuse file only the listing is left, and it fails only if it cannot be written. -/
theorem ensures_writeListing (hsums : SumOfProducts.ofTables tables = .ok sums)
    (hblocks : d.layouts sums = .ok blocks) (htext : files.HasText j.input text)
    (hlisting : j.listing? o = some (listingPath j.output)) {place : Path}
    (hplace : files.Writable j.output place) (bytes : ByteArray) (names : Design.Names) :
    Ensures (files.put place bytes) (writeListing setting j.output tables d names)
      (Ends setting o j files) := by
  obtain ⟨listing, hlist⟩ := exists_listingText hblocks setting j.output.stem names
  refine ensures_check_bind hsums (ensures_check_bind hlist ?_)
  refine ends_writeText_bind (Job.listing_mem_paths hlisting) (fun place' hplace' => ?_) ?_
  · exact ensures_say (.listed htext hlisting hplace hplace') _
  · exact fun f => .unlisted htext hlisting hplace

theorem ensures_writeFuseFile (hdevice : j.device? = some device)
    (hd : Offers setting o files device d) (htables : TruthTable.AsRead tables)
    (htext : files.HasText j.input text) (houtput : j.output = .ofString fuseFile)
    (hlisting : j.listing? o = if o.listing then some (listingPath j.output) else none)
    (names : Design.Names) :
    Ensures files (writeFuseFile setting o.listing tables d fuseFile names)
      (Ends setting o j files) := by
  have hrefused : ∀ {e}, d.Refuses tables e → Explained setting o j files (.failed e) :=
    fun h => .of_failed ((h.shown_or_unwritable htables).imp_right (.device hdevice hd))
  unfold writeFuseFile
  -- All that can be wrong with the tables or the device is found before the first file is written.
  refine (reads_check (explained_of_reports (d.reports_validateFrom [] htables.short))).ends_bind
    fun _ hvalid => (reads_say _).ends_bind fun _ _ => ?_
  obtain ⟨hpins, hnodup⟩ := Device.validate_eq_ok_iff.1 hvalid
  refine (reads_check fun e he => hrefused (Device.refuses_of_ofTables he)).ends_bind
    fun sums hsums => (reads_say _).ends_bind fun _ _ => ?_
  refine (reads_check fun e he => hrefused (Device.refuses_of_layouts hpins hsums he)).ends_bind
    fun blocks hblocks => ?_
  refine (reads_check fun e he => ?_).ends_bind fun array harray => ?_
  · exact hrefused (Device.refuses_of_placeAll hnodup hsums hblocks he)
  have hprogram : d.program tables = .ok array := by
    simp only [Device.program, bind_eq_ok_iff]
    exact ⟨sums, hsums, blocks, hblocks, harray⟩
  refine (reads_check fun e he => ?_).ends_bind fun rendered _ => ?_
  · exact .of_failed (.inr (.device hdevice hd (Device.unwritable_of_render hprogram he)))
  rw [← houtput]
  refine ends_writeText_bind Job.output_mem_paths (fun place hplace => ?_) fun _ _ => .failed
  cases hwanted : o.listing with
  | false =>
    rw [hwanted] at hlisting
    exact ensures_pure (.written htext hlisting hplace)
  | true =>
    rw [hwanted] at hlisting
    exact ensures_writeListing hsums hblocks htext hlisting hplace _ names

/-- From tables to a fuse file, a job ends in one of the ways of `Ends`. -/
theorem ensures_assembly (hdevice : j.device? = some device) (htables : TruthTable.AsRead tables)
    (htext : files.HasText j.input text) (houtput : j.output = .ofString fuseFile)
    (hlisting : j.listing? o = if o.listing then some (listingPath j.output) else none)
    (names : Design.Names) (message : String) :
    Ensures files (assembly setting o tables names fuseFile device message)
      (Ends setting o j files) :=
  (reads_selectDevice device).ends_bind fun _ hd =>
    (ensures_writeFuseFile hdevice hd htables htext houtput hlisting names).then_say message

end

end

/-- A job ends in one of the ways that `Ends` lists. -/
theorem perform_ends (setting : Setting) (o : Options) (j : Job) (files : FileSystem) :
    Ensures files (perform setting o j) (Ends setting o j files) := by
  cases j with
  | compile source fuseFile device =>
    refine (reads_readDesign rfl).ends_bind fun design ⟨htables, text, htext⟩ => ?_
    exact ensures_assembly rfl htables htext rfl rfl design.names _
  | assemble tableFile fuseFile device =>
    refine (reads_input rfl).ends_bind fun text htext => ?_
    have hload : FailsOnly (fun e => Explained setting o (.assemble tableFile fuseFile device) files
        (.failed e)) (TruthTable.loadWithin setting.limits tableFile text) := by
      refine fun e he => .of_failed ((TruthTable.loadWithin_error rfl he).imp_right ?_)
      rintro ⟨e', hparse, hlimit, rfl⟩
      exact .tables rfl htext hparse hlimit
    refine (reads_check hload).ends_bind fun tables htables => ?_
    exact ensures_assembly rfl (TruthTable.asRead_of_loadWithin rfl htables) htext rfl rfl [] _
  | tabulate source tableFile device =>
    unfold perform
    refine (reads_readDesign rfl).ends_bind fun design ⟨htables, text, htext⟩ => ?_
    cases device with
    | none => exact ensures_writeLast htext rfl rfl _ _
    | some identifier =>
      refine (reads_selectDevice identifier).ends_bind fun d _ => ?_
      have hvalidate := d.reports_validateFrom [] htables.short
      exact (reads_check (explained_of_reports hvalidate)).ends_bind
        fun _ _ => ensures_writeLast htext rfl rfl _ _

end Session

end FuseMap.Command
