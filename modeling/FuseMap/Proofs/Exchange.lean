import FuseMap.Proofs.Program
import FuseMap.Proofs.Sessions
import FuseMap.Proofs.TableFile
import FuseMap.Proofs.Totality

/-! # The two ways to a fuse file

A fuse file is made of a design text at once, or by way of a table file. Both ways have the same
result (`exchange_agrees`). From the tables on they take the same steps, in file systems that differ
in the table file (`SameProfiles`), and with different names of pins, which only listings show.
-/

namespace FuseMap.Command

namespace Session

variable {setting : Setting} {files files' : FileSystem}

/-! ## Devices -/

/-- The paths at which a profile file is looked for. -/
def profilePaths (setting : Setting) (name : String) : List Path :=
  [Path.ofString name, setting.directory.under (Path.ofString name)]

/-- Two file systems in which the same profiles are found. -/
def SameProfiles (setting : Setting) (name? : Option String) (files files' : FileSystem) : Prop :=
  ∀ name ∈ name?, ∀ p ∈ profilePaths setting name,
    files'.isFile p = files.isFile p ∧ files'.read p = files.read p

theorem alike_profileFile_bind {β : Type} {name : String} {f g : Path → Session β}
    {Q : FileSystem → FileSystem → Prop} (hsame : SameProfiles setting (some name) files files')
    (h : ∀ p ∈ profilePaths setting name, Alike (At files files') Q (f p) (g p)) :
    Alike (At files files') Q (profileFile setting name >>= f)
      (profileFile setting name >>= g) := by
  simp only [profileFile, bind_assoc]
  refine alike_get_bind fun w w' hw hw' => ?_
  rw [hw, hw', (hsame name rfl _ (by simp [profilePaths])).1]
  refine (alike_access _ _).bind fun found => ?_
  cases found with
  | true => exact h _ (by simp [profilePaths])
  | false => exact h _ (by simp [profilePaths])

/-- The devices that are loaded depend on nothing but the files at the two paths. -/
theorem alike_loadDevices {name? : Option String}
    (hsame : SameProfiles setting name? files files') :
    Alike (At files files') (At files files') (loadDevices setting name?)
      (loadDevices setting name?) := by
  unfold loadDevices
  refine (alike_say _ _).bind fun _ => ?_
  cases name? with
  | none => exact alike_throw _
  | some name =>
    refine alike_profileFile_bind hsame fun p hp => ?_
    refine alike_get_bind fun w w' hw hw' => ?_
    rw [hw, hw', (hsame name rfl p hp).2]
    split
    · exact (alike_say _ _).bind fun _ => alike_pure _
    · refine (alike_access _ _).bind fun bytes => (alike_decode bytes).bind fun text => ?_
      exact (alike_forM_say _ _).bind fun _ => alike_check _

theorem alike_selectDevice {name? : Option String}
    (hsame : SameProfiles setting name? files files') (identifier : String) :
    Alike (At files files') (At files files') (selectDevice setting name? identifier)
      (selectDevice setting name? identifier) := by
  refine (alike_loadDevices hsame).bind fun devices => (alike_check _).bind fun d => ?_
  exact (alike_say _ _).bind fun _ => alike_pure d

theorem yields_profileFile {name : String}
    (hfile : files.isFile (Path.ofString name) = .ok true) :
    Yields (profileFile setting name) files (Path.ofString name) files := by
  refine yields_get_bind ?_
  rintro w rfl
  exact (yields_access hfile _).bind (yields_pure _)

theorem yields_loadDevices {name profiles : String} {devices : List Device}
    (hfile : files.isFile (Path.ofString name) = .ok true)
    (hread : files.read (Path.ofString name) = .ok profiles.toUTF8)
    (hload : (Device.loadWithin setting.limits (Path.ofString name).text
      (Text.unifyNewlines profiles.toList)).devices = .ok devices) :
    Yields (loadDevices setting (some name)) files devices files := by
  refine (yields_say _).bind ((yields_profileFile hfile).bind (yields_get_bind ?_))
  rintro w rfl
  rw [hread]
  refine (yields_access rfl _).bind ((yields_decode profiles).bind ?_)
  exact (yields_forM_say _ _).bind (yields_check hload)

theorem fails_loadDevices {name profiles : String} {e : Error}
    (hfile : files.isFile (Path.ofString name) = .ok true)
    (hread : files.read (Path.ofString name) = .ok profiles.toUTF8)
    (hload : (Device.loadWithin setting.limits (Path.ofString name).text
      (Text.unifyNewlines profiles.toList)).devices = .error e) :
    Fails (loadDevices setting (some name)) files (.failed e) := by
  refine (yields_say _).bind_fails ((yields_profileFile hfile).bind_fails (fails_get_bind ?_))
  rintro w rfl
  rw [hread]
  refine (yields_access rfl _).bind_fails ((yields_decode profiles).bind_fails ?_)
  exact (yields_forM_say _ _).bind_fails (fails_check hload)

/-! ## Fuse files and listings -/

/-- The path of the listing beside a fuse file. -/
def listingPath (fuseFile : Path) : Path := fuseFile.parent.child (fuseFile.stem ++ ".dnf.txt")

/-- The same bytes are read at a path. -/
def SameFile (p : Path) (fs fs' : FileSystem) : Prop :=
  ∃ bytes, fs.read p = .ok bytes ∧ fs'.read p = .ok bytes

section
variable {d : Device} {tables : List TruthTable} {sums : List SumOfProducts}
  {blocks : List FuseBlock} {p place : Path}

/-- An output that has a block can be listed. -/
theorem exists_listingText (h : d.layouts sums = .ok blocks) (setting : Setting) (stem : String)
    (names : Design.Names) : ∃ text, listingText setting d stem names sums = .ok text := by
  have hcapacity : ∀ s ∈ d.inOutputOrder (·.outputPin) sums,
      ∃ n, d.rowCapacity s.outputPin = .ok n := by
    intro s hs
    obtain ⟨b, -, hb⟩ := exists_of_mapM_eq_ok h ((inOrder_perm _ sums).mem_iff.1 hs)
    obtain ⟨o, ho, -⟩ := bind_eq_ok_iff.1 hb
    exact ⟨o.termRows, by rw [Device.rowCapacity, ho]; rfl⟩
  unfold listingText
  rw [exists_congr fun _ => bind_eq_ok_iff, exists_comm]
  refine Exists.imp (fun entries hentries => ⟨_, hentries, rfl⟩) (exists_mapM_eq_ok fun s hs => ?_)
  obtain ⟨n, hn⟩ := hcapacity s hs
  rw [hn]
  exact ⟨_, rfl⟩

theorem yields_writeListing (hsums : SumOfProducts.ofTables tables = .ok sums) {text : String}
    {names : Design.Names} (htext : listingText setting d p.stem names sums = .ok text)
    (hplace : files.Writable (listingPath p) place) :
    Yields (writeListing setting p tables d names) files () (files.put place text.toUTF8) := by
  refine (yields_check hsums).bind ((yields_check htext).bind ?_)
  exact (yields_writeText hplace text).bind (yields_say _)

/-- A listing leaves the fuse file as it is. -/
theorem exists_yields_listing (setting : Setting) (hsums : SumOfProducts.ofTables tables = .ok sums)
    (hblocks : d.layouts sums = .ok blocks) (hending : p.ending ∈ fuseFileEndings)
    {bytes : ByteArray} (hread : files.read p = .ok bytes) {listing : Bool}
    (hlisting : listing = true → ∃ place, files.Writable (listingPath p) place)
    (names : Design.Names) :
    ∃ files', Yields (if listing then writeListing setting p tables d names else pure ()) files ()
      files' ∧ files'.read p = .ok bytes := by
  cases listing with
  | false => exact ⟨files, yields_pure (), hread⟩
  | true =>
    obtain ⟨place, hplace⟩ := hlisting rfl
    obtain ⟨text, htext⟩ := exists_listingText hblocks setting p.stem names
    have hyields := yields_writeListing hsums htext hplace
    obtain ⟨target, htarget, -⟩ := bind_eq_ok_iff.1 hread
    have hlisted : (listingPath p).ending = "txt" := FileSystem.ending_listing _ _
    have hne : target ≠ place := by
      simp only [fuseFileEndings, List.mem_cons, List.not_mem_nil, or_false] at hending
      refine FileSystem.ne_of_ending htarget hplace.locate ?_ ?_ ?_
      · rcases hending with h | h <;> simp [h]
      · simp [hlisted]
      · rcases hending with h | h <;> simp [h, hlisted]
    exact ⟨_, hyields, (FileSystem.read_put_of_ne hplace htarget hne).trans hread⟩

/-- Fuse files are written alike, whatever the pins are called and the listings say. -/
theorem alike_writeFuseFile {fuseFile : String}
    (hending : (Path.ofString fuseFile).ending ∈ fuseFileEndings)
    (hfuse : files.Writable (Path.ofString fuseFile) place)
    (hfuse' : files'.Writable (Path.ofString fuseFile) place) {listing listing' : Bool}
    (hlisting : listing = true →
      ∃ place, files.Writable (listingPath (Path.ofString fuseFile)) place)
    (hlisting' : listing' = true →
      ∃ place, files'.Writable (listingPath (Path.ofString fuseFile)) place)
    (names names' : Design.Names) :
    Alike (At files files') (SameFile (Path.ofString fuseFile))
      (writeFuseFile setting listing tables d fuseFile names)
      (writeFuseFile setting listing' tables d fuseFile names') := by
  unfold writeFuseFile
  refine (alike_check _).bind fun _ => (alike_say _ _).bind fun _ => ?_
  refine alike_check_bind fun sums hsums => (alike_say _ _).bind fun _ => ?_
  refine alike_check_bind fun blocks hblocks => (alike_check _).bind fun array => ?_
  refine (alike_check _).bind fun text => ?_
  refine (yields_writeText hfuse text).alike_left ((yields_writeText hfuse' text).alike_right ?_)
  obtain ⟨_, hyields, hread⟩ := exists_yields_listing setting hsums hblocks hending
    (FileSystem.read_put_self hfuse _) (fun h => (hlisting h).imp fun _ => hfuse.put) names
  obtain ⟨_, hyields', hread'⟩ := exists_yields_listing setting hsums hblocks hending
    (FileSystem.read_put_self hfuse' _) (fun h => (hlisting' h).imp fun _ => hfuse'.put) names'
  exact hyields.alike hyields' ⟨_, hread, hread'⟩

/-- From tables to a fuse file. -/
def assembly (setting : Setting) (o : Options) (tables : List TruthTable) (names : Design.Names)
    (fuseFile device message : String) : Session Unit := do
  let d ← selectDevice setting o.devices device
  writeFuseFile setting o.listing tables d fuseFile names
  say message

/-- What is printed and listed may differ, but the same fuse file is written. -/
theorem alike_assembly {o o' : Options} {fuseFile : String} (hdevices : o'.devices = o.devices)
    (hsame : SameProfiles setting o.devices files files')
    (hending : (Path.ofString fuseFile).ending ∈ fuseFileEndings)
    (hfuse : files.Writable (Path.ofString fuseFile) place)
    (hfuse' : files'.Writable (Path.ofString fuseFile) place)
    (hlisting : o.listing = true →
      ∃ place, files.Writable (listingPath (Path.ofString fuseFile)) place)
    (hlisting' : o'.listing = true →
      ∃ place, files'.Writable (listingPath (Path.ofString fuseFile)) place)
    (names names' : Design.Names) (device message message' : String) :
    Alike (At files files') (SameFile (Path.ofString fuseFile))
      (assembly setting o tables names fuseFile device message)
      (assembly setting o' tables names' fuseFile device message') := by
  unfold assembly
  rw [hdevices]
  refine (alike_selectDevice hsame device).bind fun d => ?_
  refine Alike.bind ?_ fun _ => alike_say message message'
  exact alike_writeFuseFile hending hfuse hfuse' hlisting hlisting' names names'

/-- The fuse file of tables for a device of a profile text. -/
def fuseText (limits : Json.Limits) (path : String) (profiles : List Char) (device : String)
    (tables : List TruthTable) : Except Error String := do
  let devices ← (Device.loadWithin limits path profiles).devices
  let d ← Device.select devices device
  d.validate tables
  let array ← d.program tables
  Jedec.render d array.fuses

/-- The steps from tables to a fuse file, before its listing, succeed. -/
structure Makes (setting : Setting) (o : Options) (tables : List TruthTable) (names : Design.Names)
    (fuseFile device : String) (files : FileSystem) (d : Device) (sums : List SumOfProducts)
    (files' : FileSystem) : Prop where
  translated : SumOfProducts.ofTables tables = .ok sums
  laidOut : ∃ blocks, d.layouts sums = .ok blocks
  selected : Yields (selectDevice setting o.devices device) files d files
  written : Yields (writeFuseFile setting false tables d fuseFile names) files () files'

/-- A fuse text that can be made up is written by the session. -/
theorem exists_makes {o : Options} {name profiles fuseFile device text : String}
    (hdevices : o.devices = some name) (hfile : files.isFile (Path.ofString name) = .ok true)
    (hread : files.read (Path.ofString name) = .ok profiles.toUTF8)
    (htext : fuseText setting.limits (Path.ofString name).text
      (Text.unifyNewlines profiles.toList) device tables = .ok text)
    (hfuse : files.Writable (Path.ofString fuseFile) place) (names : Design.Names) :
    ∃ d sums, Makes setting o tables names fuseFile device files d sums
      (files.put place text.toUTF8) := by
  simp only [fuseText, Device.program, bind_eq_ok_iff] at htext
  obtain ⟨devices, hload, d, hselect, ⟨⟩, hvalid, array, ⟨sums, hsums, blocks, hblocks, harray⟩,
    hrender⟩ := htext
  refine ⟨d, sums, hsums, ⟨blocks, hblocks⟩, ?_, ?_⟩
  · rw [hdevices]
    refine (yields_loadDevices hfile hread hload).bind ((yields_check hselect).bind ?_)
    exact (yields_say _).bind (yields_pure d)
  · refine (yields_check hvalid).bind ((yields_say _).bind ((yields_check hsums).bind ?_))
    refine (yields_say _).bind ((yields_check hblocks).bind ((yields_check harray).bind ?_))
    exact (yields_check hrender).bind ((yields_writeText hfuse text).bind (yields_pure ()))

theorem yields_assembly {o : Options} {name profiles fuseFile device text : String}
    (hdevices : o.devices = some name) (hlisting : o.listing = false)
    (hfile : files.isFile (Path.ofString name) = .ok true)
    (hread : files.read (Path.ofString name) = .ok profiles.toUTF8)
    (htext : fuseText setting.limits (Path.ofString name).text
      (Text.unifyNewlines profiles.toList) device tables = .ok text)
    (hfuse : files.Writable (Path.ofString fuseFile) place) (names : Design.Names)
    (message : String) :
    Yields (assembly setting o tables names fuseFile device message) files ()
      (files.put place text.toUTF8) := by
  obtain ⟨d, sums, hmakes⟩ := exists_makes hdevices hfile hread htext hfuse names
  have hwritten := hmakes.written
  rw [← hlisting] at hwritten
  exact hmakes.selected.bind (hwritten.bind (yields_say message))

/-- The listing comes after the fuse file and nothing comes between them. -/
theorem writeFuseFile_true (fuseFile : String) (names : Design.Names) :
    writeFuseFile setting true tables d fuseFile names =
      writeFuseFile setting false tables d fuseFile names >>= fun _ =>
        writeListing setting (Path.ofString fuseFile) tables d names := by
  simp [writeFuseFile]

section
variable {o : Options} {names : Design.Names} {fuseFile device : String}

theorem Makes.exists_yields_listed (h : Makes setting o tables names fuseFile device files d sums
    files') (hlisting : o.listing = true)
    (hplace : files'.Writable (listingPath (Path.ofString fuseFile)) place) :
    ∃ listing, listingText setting d (Path.ofString fuseFile).stem names sums = .ok listing ∧
      ∀ message, Yields (assembly setting o tables names fuseFile device message) files ()
        (files'.put place listing.toUTF8) := by
  obtain ⟨blocks, hblocks⟩ := h.laidOut
  obtain ⟨listing, hlisted⟩ :=
    exists_listingText hblocks setting (Path.ofString fuseFile).stem names
  have hwritten : Yields (writeFuseFile setting o.listing tables d fuseFile names) files ()
      (files'.put place listing.toUTF8) := by
    rw [hlisting, writeFuseFile_true]
    exact h.written.bind (yields_writeListing h.translated hlisted hplace)
  exact ⟨listing, hlisted, fun message => h.selected.bind (hwritten.bind (yields_say message))⟩

/-- The fuse file stays even if its listing cannot be written. -/
theorem Makes.leaves_unlisted (h : Makes setting o tables names fuseFile device files d sums files')
    (hlisting : o.listing = true) {e : FileError}
    (hwrite : ∀ bytes, files'.write (listingPath (Path.ofString fuseFile)) bytes = .error e)
    (message : String) : Leaves (assembly setting o tables names fuseFile device message) files
      (fileFailure e (listingPath (Path.ofString fuseFile))) files' := by
  obtain ⟨blocks, hblocks⟩ := h.laidOut
  obtain ⟨listing, hlisted⟩ :=
    exists_listingText hblocks setting (Path.ofString fuseFile).stem names
  refine h.selected.bind_leaves (Leaves.bind ?_ _)
  rw [hlisting, writeFuseFile_true]
  refine h.written.bind_leaves ((yields_check h.translated).bind_leaves ?_)
  exact (yields_check hlisted).bind_leaves ((leaves_writeText (hwrite _)).bind _)

end

end

/-! ## Designs -/

/-- A design is read as its text is, if the stack has room for it. -/
theorem yields_readDesign {source : String} {text : List Char} {design : Design}
    (htext : Yields (readText (Path.ofString source)) files text files)
    (hroom : setting.exhausted? text = none)
    (hparse : Design.parse (String.ofList text) = .ok design) :
    Yields (readDesign setting source) files design files := by
  refine htext.bind ?_
  rw [hroom]
  exact yields_check (by rw [hparse]; rfl)

/-- Reading a design gives one that the parser accepts, or fails without a change. -/
theorem yields_or_fails_readDesign (setting : Setting) (source : String) (files : FileSystem) :
    (∃ text design, Design.parse text = .ok design ∧
      Yields (readDesign setting source) files design files) ∨
    ∃ f, Fails (readDesign setting source) files f := by
  obtain ⟨text, htext⟩ | ⟨f, hf⟩ := yields_or_fails_readText (Path.ofString source) files
  · cases hroom : setting.exhausted? text with
    | some line =>
      refine .inr ⟨.failed (.design ⟨.stackExhausted, line⟩), htext.bind_fails ?_⟩
      rw [hroom]
      exact fun _ _ => rfl
    | none =>
      cases hparse : Design.parse (String.ofList text) with
      | ok design => exact .inl ⟨_, design, hparse, yields_readDesign htext hroom hparse⟩
      | error e =>
        refine .inr ⟨.failed (.design e), htext.bind_fails ?_⟩
        rw [hroom]
        exact fails_check (by rw [hparse]; rfl)
  · exact .inr ⟨f, hf.bind _⟩

end Session

open Session in
/-- A design text gives the same fuse file, or the same failure, at once and by way of a table
file. -/
theorem exchange_agrees {setting : Setting} {o o₁ o₂ : Options}
    {source tableFile fuseFile device : String} {files : FileSystem} {tablePlace fusePlace : Path}
    (hdevices : o₂.devices = o.devices)
    (hending : (Path.ofString fuseFile).ending ∈ fuseFileEndings)
    (htables : files.Writable (Path.ofString tableFile) tablePlace)
    (hfuses : files.Writable (Path.ofString fuseFile) fusePlace)
    (hlistings : (o.listing || o₂.listing) = true →
      ∃ place, files.Writable (listingPath (Path.ofString fuseFile)) place)
    (hprofiles : ∀ name ∈ o.devices, ∀ p ∈ profilePaths setting name, tablePlace ∉ p.places) :
    let direct := (perform setting o (.compile source fuseFile device)).result { files }
    let tabulated := (perform setting o₁ (.tabulate source tableFile none)).result { files }
    let assembled := (perform setting o₂ (.assemble tableFile fuseFile device)).result
      { files := tabulated.2.files }
    (direct.1 = .ok () ∧ tabulated.1 = .ok () ∧ assembled.1 = .ok () ∧
      ∃ bytes, direct.2.files.read (Path.ofString fuseFile) = .ok bytes ∧
        assembled.2.files.read (Path.ofString fuseFile) = .ok bytes) ∨
    ∃ f, direct.1 = .error f ∧
      (tabulated.1 = .error f ∨ tabulated.1 = .ok () ∧ assembled.1 = .error f) := by
  intro direct tabulated assembled
  obtain ⟨text, design, hparse, hdesign⟩ | ⟨f, hf⟩ :=
    yields_or_fails_readDesign setting source files
  · have hcomplete := (Design.wellFormed_of_parse hparse).complete
    have htabulate : Yields (perform setting o₁ (.tabulate source tableFile none)) files ()
        (files.put tablePlace (TruthTable.save design.tables).toUTF8) :=
      hdesign.bind ((yields_writeText htables _).bind (yields_say _))
    obtain ⟨w, htabulated, hfiles⟩ := htabulate { files } rfl
    have hread := FileSystem.read_put_self htables (TruthTable.save design.tables).toUTF8
    have hpins : TruthTable.TakesPins setting.limits design.tables := fun t ht pin hpin =>
      decide_eq_true (Design.isShort_of_parse hparse ht pin hpin)
    have hdepth : setting.limits.allowsDepth 3 = true := decide_eq_true setting.depth_le
    have hload := TruthTable.loadWithin_save hcomplete hpins hdepth tableFile
    rw [← hfiles] at hread
    have hsame : SameProfiles setting o.devices files w.files := by
      intro name hname p hp
      have hnot := hprofiles name hname p hp
      rw [hfiles]
      exact ⟨FileSystem.isFile_put_of_notMem htables hnot,
        FileSystem.read_put_of_notMem htables hnot⟩
    have hwritable : ∀ {p place : Path}, files.Writable p place → w.files.Writable p place := by
      intro p place hp
      rw [hfiles]
      exact htables.put hp
    have halike : Alike (At files w.files) (SameFile (Path.ofString fuseFile))
        (perform setting o (.compile source fuseFile device))
        (perform setting o₂ (.assemble tableFile fuseFile device)) := by
      refine hdesign.alike_left ?_
      refine (yields_readText hread).alike_right ((yields_check hload).alike_right ?_)
      exact alike_assembly hdevices hsame hending hfuses (hwritable hfuses)
        (fun h => hlistings (by simp [h]))
        (fun h => (hlistings (by simp [h])).imp fun _ => hwritable) design.names [] device _ _
    obtain ⟨hresult, hsuccess⟩ := halike { files } { files := tabulated.2.files }
      ⟨rfl, by simp only [tabulated, htabulated]⟩
    have ht : tabulated.1 = .ok () := by simp only [tabulated, htabulated]
    cases hdirect : direct.1 with
    | ok => exact .inl ⟨rfl, ht, hresult.symm.trans hdirect, hsuccess () hdirect⟩
    | error f => exact .inr ⟨f, rfl, .inr ⟨ht, hresult.symm.trans hdirect⟩⟩
  · exact .inr ⟨f, hf.bind _ { files } rfl, .inl (hf.bind _ { files } rfl)⟩

/-- A design in which an output follows an input. -/
def wireText : String := "pin 1, 3 = a, x; x = a;"

/-- The profile of a device with one input and one output. -/
def wireProfiles : String :=
  "\x7b\"wire\": \x7b\"device_name\": \"WIRE\", \"pin_count\": 3, \"fuse_count\": 2,
    \"column_pins\": [1], \"input_pins\": [1], \"output_pins\": [3], \"connected_fuse\": 0,
    \"mode_values\": \x7b\"polarity_active_high\": 1, \"combinatorial\": 1, \"registered\": 0\x7d,
    \"outputs\": [\x7b\"pin\": 3, \"first_row\": 0, \"term_rows\": 1, \"mode_bits\": \x7b\x7d\x7d]
    \x7d\x7d"

/-- A directory with both. -/
def wireFiles : FileSystem where
  files := [(⟨.current, ["wire.txt"]⟩, wireText.toUTF8),
    (⟨.current, ["devices.config"]⟩, wireProfiles.toUTF8)]

def wireSetting : Setting := .standard ⟨.root, ["lib"]⟩ "01/31/25"

theorem toList_of_eq_ofList {s : String} {cs : List Char} (h : s = String.ofList cs) :
    s.toList = cs := by
  rw [h, String.toList_ofList]

/-- The table of the design. -/
def wireTables : List TruthTable := [⟨3, false, [1], [false, true]⟩]

theorem exists_wire_fuseText : ∃ text, Session.fuseText wireSetting.limits "devices.config"
    (Text.unifyNewlines wireProfiles.toList) "wire" wireTables = .ok text := by
  -- evaluation goes through the list of characters, since a string is decoded from bytes
  have hchars : wireProfiles.toList = _ := toList_of_eq_ofList (by unfold wireProfiles; rfl)
  have hok : (Session.fuseText wireSetting.limits "devices.config"
      (Text.unifyNewlines wireProfiles.toList) "wire" wireTables).isOk = true := by
    rw [hchars]
    decide +kernel
  generalize Session.fuseText .. = r at hok
  cases r with
  | error e => cases hok
  | ok text => exact ⟨text, rfl⟩

open Session in
theorem exchange_agrees_wire :
    let direct := (perform wireSetting {} (.compile "wire.txt" "wire.jed" "wire")).result
      { files := wireFiles }
    let tabulated := (perform wireSetting {} (.tabulate "wire.txt" "wire.json" none)).result
      { files := wireFiles }
    let assembled := (perform wireSetting {} (.assemble "wire.json" "wire.jed" "wire")).result
      { files := tabulated.2.files }
    direct.1 = .ok () ∧ tabulated.1 = .ok () ∧ assembled.1 = .ok () ∧
      ∃ bytes, direct.2.files.read (Path.ofString "wire.jed") = .ok bytes ∧
        assembled.2.files.read (Path.ofString "wire.jed") = .ok bytes := by
  have hfuse : wireFiles.Writable (Path.ofString "wire.jed") ⟨.current, ["wire.jed"]⟩ := ⟨rfl, rfl⟩
  have hfile : wireFiles.isFile (Path.ofString "devices.config") = .ok true := rfl
  have hprofiles : wireFiles.read (Path.ofString "devices.config") = .ok wireProfiles.toUTF8 := rfl
  obtain ⟨text, htext⟩ := exists_wire_fuseText
  obtain ⟨design, hparse, hdesign⟩ : ∃ design,
      Design.parse (String.ofList (Text.unifyNewlines wireText.toList)) = .ok design ∧
        design.tables = wireTables := ⟨_, rfl, rfl⟩
  rw [← hdesign] at htext
  have hread : Yields (readDesign wireSetting "wire.txt") wireFiles design wireFiles :=
    yields_readDesign (yields_readText rfl) rfl hparse
  have hcompile : Yields (perform wireSetting {} (.compile "wire.txt" "wire.jed" "wire"))
      wireFiles () (wireFiles.put ⟨.current, ["wire.jed"]⟩ text.toUTF8) :=
    hread.bind (yields_assembly rfl rfl hfile hprofiles htext hfuse design.names _)
  obtain ⟨w, hw, -⟩ := hcompile { files := wireFiles } rfl
  have hplaces : ∀ p ∈ profilePaths wireSetting "devices.config",
      (⟨.current, ["wire.json"]⟩ : Path) ∉ p.places := by decide
  obtain hsuccess | ⟨f, hf, -⟩ := @exchange_agrees wireSetting {} {} {} "wire.txt" "wire.json"
    "wire.jed" "wire" wireFiles ⟨.current, ["wire.json"]⟩ _ rfl (by decide) ⟨rfl, rfl⟩ hfuse
    (by simp) (by rintro name ⟨⟩; exact hplaces)
  · exact hsuccess
  · rw [hw] at hf
    cases hf

end FuseMap.Command
