import FuseMap.Proofs.Effects

/-! # What a run reports and leaves

The ways in which a job can end (`Session.Ends`), seen from outside: how failures are reported
(`ending_of_run`), what a failed run leaves in the file system (`files_of_failed_run`), and what
becomes of the file that the run reads (`read_input_of_run`).
-/

namespace FuseMap.Command

open FileSystem Session

variable {setting : Setting} {arguments : List String} {o : Options} {j : Job} {files : FileSystem}

/-! ## Endings of files -/

namespace Job

/-- The endings that the input of a job can have. -/
def inputEndings : Job → List String
  | .compile .. | .tabulate .. => sourceEndings
  | .assemble .. => tableFileEndings

/-- The endings that the output of a job can have. -/
def outputEndings : Job → List String
  | .compile .. | .assemble .. => fuseFileEndings
  | .tabulate .. => tableFileEndings

/-- The files of a job have the endings that they can have. -/
structure HasEndings (j : Job) : Prop where
  input : j.input.ending ∈ j.inputEndings
  output : j.output.ending ∈ j.outputEndings

/-- The endings of what is read are never those of what is written. -/
theorem endings_apart (j : Job) : "" ∉ j.inputEndings ∧ "" ∉ j.outputEndings ∧
    j.inputEndings.Disjoint j.outputEndings := by
  cases j with
  | compile | assemble | tabulate =>
    simp [inputEndings, outputEndings, sourceEndings, fuseFileEndings, tableFileEndings]

end Job

theorem mem_of_checkEnding {file : String} {endings : List String} {u : Unit}
    (h : checkEnding file endings = .ok u) : (Path.ofString file).ending ∈ endings := by
  unfold checkEnding at h
  split at h
  · next hmem => exact List.contains_iff_mem.1 hmem
  · cases h

theorem hasEndings_of_exchangeJob {names : List String} (h : exchangeJob names = .ok j) :
    j.HasEndings := by
  obtain _ | ⟨first, _ | ⟨second, rest⟩⟩ := names
  · cases h
  · cases h
  · unfold exchangeJob at h
    dsimp only at h
    by_cases htable : tableFileEndings.contains (Path.ofString first).ending
    · rw [if_pos htable] at h
      obtain _ | ⟨device, _ | _⟩ := rest
      · cases h
      · obtain ⟨_, hsecond, ⟨⟩⟩ := bind_eq_ok_iff.1 h
        exact ⟨List.contains_iff_mem.1 htable, mem_of_checkEnding hsecond⟩
      · cases h
    · rw [if_neg htable] at h
      by_cases hsource : sourceEndings.contains (Path.ofString first).ending
      · rw [if_pos hsource] at h
        obtain _ | ⟨device, _ | _⟩ := rest
        · obtain ⟨_, hsecond, ⟨⟩⟩ := bind_eq_ok_iff.1 h
          exact ⟨List.contains_iff_mem.1 hsource, mem_of_checkEnding hsecond⟩
        · obtain ⟨_, hsecond, ⟨⟩⟩ := bind_eq_ok_iff.1 h
          exact ⟨List.contains_iff_mem.1 hsource, mem_of_checkEnding hsecond⟩
        · cases h
      · rw [if_neg hsource] at h
        cases h

/-- The endings are checked before there is a job. -/
theorem hasEndings_of_request (h : request arguments = .ok (o, j)) : j.HasEndings := by
  simp only [request, bind_eq_ok_iff, pure_eq_ok_iff, Prod.mk.injEq] at h
  obtain ⟨_, -, _, hjob, -, rfl⟩ := h
  unfold job at hjob
  split at hjob
  · exact hasEndings_of_exchangeJob hjob
  · simp only [bind_eq_ok_iff, pure_eq_ok_iff] at hjob
    obtain ⟨_, hsource, _, hfuse, rfl⟩ := hjob
    exact ⟨mem_of_checkEnding hsource, mem_of_checkEnding hfuse⟩
  · cases hjob

theorem ne_of_mem_endings {endings endings' : List String} {p q target place : Path}
    (hp : files.locate p = .ok target) (hq : files.locate q = .ok place)
    (hpe : p.ending ∈ endings) (hqe : q.ending ∈ endings')
    (hapart : "" ∉ endings ∧ "" ∉ endings' ∧ endings.Disjoint endings') : target ≠ place := by
  obtain ⟨hempty, hempty', hdisjoint⟩ := hapart
  refine ne_of_ending hp hq (fun h => hempty (h ▸ hpe)) (fun h => hempty' (h ▸ hqe)) fun h => ?_
  exact hdisjoint hpe (h ▸ hqe)

/-! ## The input of a job -/

section
variable {p place target : Path} {bytes : ByteArray}

theorem exists_locate_of_hasText {text : List Char} (h : files.HasText p text) :
    ∃ target, files.locate p = .ok target := by
  obtain ⟨_, _, hread, -⟩ := h
  obtain ⟨target, htarget, -⟩ := bind_eq_ok_iff.1 hread
  exact ⟨target, htarget⟩

/-- Writing the output leaves the input as it is. -/
theorem read_input_put_output (hj : j.HasEndings) (htarget : files.locate j.input = .ok target)
    (hplace : files.Writable j.output place) :
    (files.put place bytes).read j.input = files.read j.input :=
  read_put_of_ne hplace htarget
    (ne_of_mem_endings htarget hplace.locate hj.input hj.output j.endings_apart)

/-- Only a design can be where a listing goes. -/
theorem exists_compile_of_listing (hj : j.HasEndings) (hlisting : j.listing? o = some p)
    (hp : files.locate p = .ok place) (hinput : files.locate j.input = .ok place) :
    ∃ source fuseFile device, j = .compile source fuseFile device ∧ o.listing = true ∧
      placeOf (listingPath (Path.ofString fuseFile)) = placeOf (Path.ofString source) := by
  have hplaces : placeOf p = placeOf j.input :=
    (eq_placeOf_of_locate hp).symm.trans (eq_placeOf_of_locate hinput)
  cases j with
  | compile source fuseFile device =>
    obtain ⟨hwanted, ⟨⟩⟩ := Option.ite_none_right_eq_some.1 hlisting
    exact ⟨source, fuseFile, device, rfl, hwanted, hplaces⟩
  | assemble tableFile fuseFile device =>
    obtain ⟨-, ⟨⟩⟩ := Option.ite_none_right_eq_some.1 hlisting
    have hending : (listingPath (Path.ofString fuseFile)).ending ∈ sourceEndings :=
      List.mem_singleton.2 (ending_listing _ _)
    have hapart : "" ∉ tableFileEndings ∧ "" ∉ sourceEndings ∧
        tableFileEndings.Disjoint sourceEndings := by
      simp [tableFileEndings, sourceEndings]
    exact absurd rfl (ne_of_mem_endings hinput hp hj.input hending hapart)
  | tabulate => cases hlisting

end

/-! ## Runs -/

theorem run_eq_finish (h : request arguments = .ok (o, j)) (setting : Setting)
    (files : FileSystem) : run setting arguments files =
      finish ((perform setting o j).result { files }).1
        ((perform setting o j).result { files }).2 := by
  rw [run, h]
  rfl

/-- A run ends the way its job does. -/
theorem exists_ends_of_run (h : request arguments = .ok (o, j)) (setting : Setting)
    (files : FileSystem) : ∃ result w files', run setting arguments files = finish result w ∧
      Ends setting o j files result files' ∧ w.files = files' ∧ w.errors = "" := by
  obtain ⟨hends, herrors⟩ := perform_ends setting o j files { files } rfl
  exact ⟨_, _, _, run_eq_finish h setting files, hends, rfl, herrors⟩

theorem files_finish (result : Except Failure Unit) (w : World) :
    (finish result w).world.files = w.files := by
  unfold finish
  split
  · rfl
  · split <;> rfl
  · rfl

/-- The end of a failed job is reported if there is no known reason why it is not. -/
theorem finish_error {f : Failure} {w : World} (hf : Explained setting o j files f)
    (hw : w.errors = "") :
    ((finish (.error f) w).ending = .exit 1 ∧
        ∃ message, (finish (.error f) w).world.errors = "error: " ++ message ++ "\n") ∨
      ∃ e, (finish (.error f) w).ending = .aborted e ∧ Unreported setting o j files e := by
  have hreport : ∀ message, w.errors ++ "error: " ++ message ++ "\n" =
      "error: " ++ message ++ "\n" := by simp [hw]
  cases f with
  | file e path => exact .inl ⟨rfl, _, hreport _⟩
  | failed e =>
    simp only [finish]
    split
    · exact .inl ⟨rfl, _, hreport _⟩
    · next hreported =>
      exact .inr ⟨e, rfl, (hf e rfl).resolve_left (mt Error.shown_iff.1 hreported)⟩

/-- An error of another kind than those that are reported ends the run. -/
theorem ending_of_fails (h : request arguments = .ok (o, j)) {e : Error}
    (hfails : Fails (perform setting o j) files (.failed e)) (he : e.isReported = false) :
    (run setting arguments files).ending = .aborted e := by
  rw [run_eq_finish h, hfails { files } rfl, finish, if_neg (by simp [he])]

/-! ## Reports -/

/-- A run succeeds, or reports its failure in one line, or there is one of the reasons of
`Unreported`. -/
theorem ending_of_run (h : request arguments = .ok (o, j)) :
    let outcome := run setting arguments files
    (outcome.ending = .exit 0 ∧ outcome.world.errors = "") ∨
      (outcome.ending = .exit 1 ∧
        ∃ message, outcome.world.errors = "error: " ++ message ++ "\n") ∨
      ∃ e, outcome.ending = .aborted e ∧ Unreported setting o j files e := by
  intro outcome
  obtain ⟨result, w, files', hrun, hends, -, herrors⟩ := exists_ends_of_run h setting files
  simp only [outcome, hrun]
  cases hends with
  | written | listed => exact .inl ⟨rfl, herrors⟩
  | failed hf | unlisted _ _ _ _ hf => exact .inr (finish_error hf herrors)

/-- The job of the wire's design. -/
def wireJob (source : String) : Job := .compile source "wire.jed" "wire"

theorem yields_readDesign_wire {source : String}
    (hsource : files.read (Path.ofString source) = .ok wireText.toUTF8) :
    ∃ design, design.tables = wireTables ∧
      Yields (readDesign wireSetting source) files design files := by
  obtain ⟨design, hparse, hdesign⟩ : ∃ design,
      Design.parse (String.ofList (Text.unifyNewlines wireText.toList)) = .ok design ∧
        design.tables = wireTables := ⟨_, rfl, rfl⟩
  exact ⟨design, hdesign, yields_readDesign (yields_readText hsource) rfl hparse⟩

/-- A profile of the wire with an infinite number of pins. -/
def endlessProfiles : String :=
  "\x7b\"wire\": \x7b\"device_name\": \"WIRE\", \"pin_count\": 1e999\x7d\x7d"

/-- The wire's directory with that profile. -/
def endlessFiles : FileSystem where
  files := [(⟨.current, ["wire.txt"]⟩, wireText.toUTF8),
    (⟨.current, ["devices.config"]⟩, endlessProfiles.toUTF8)]

/-- The wire's directory with a design that is no text. -/
def strangeFiles : FileSystem where
  files := [(⟨.current, ["wire.txt"]⟩, ⟨#[0xff]⟩),
    (⟨.current, ["devices.config"]⟩, wireProfiles.toUTF8)]

theorem not_reported_of_endless_or_strange :
    request ["wire.txt", "wire.jed", "wire"] =
      .ok ({ files := ["wire.txt", "wire.jed", "wire"] }, wireJob "wire.txt") ∧
    (run wireSetting ["wire.txt", "wire.jed", "wire"] endlessFiles).ending =
      .aborted .infiniteNumber ∧
    (run wireSetting ["wire.txt", "wire.jed", "wire"] strangeFiles).ending = .aborted .notUtf8 := by
  have hrequest : request ["wire.txt", "wire.jed", "wire"] =
      .ok ({ files := ["wire.txt", "wire.jed", "wire"] }, wireJob "wire.txt") := rfl
  have hload : (Device.loadWithin wireSetting.limits "devices.config"
      (Text.unifyNewlines endlessProfiles.toList)).devices = .error .infiniteNumber := by
    have hchars : endlessProfiles.toList = _ := toList_of_eq_ofList (by unfold endlessProfiles; rfl)
    rw [hchars]
    rfl
  obtain ⟨design, -, hread⟩ : ∃ design, design.tables = wireTables ∧
      Yields (readDesign wireSetting "wire.txt") endlessFiles design endlessFiles :=
    yields_readDesign_wire rfl
  have hfails : Fails (loadDevices wireSetting (some "devices.config")) endlessFiles
      (.failed .infiniteNumber) :=
    @fails_loadDevices wireSetting _ "devices.config" endlessProfiles _ rfl rfl hload
  refine ⟨hrequest, ending_of_fails hrequest ?_ rfl, rfl⟩
  exact hread.bind_fails ((hfails.bind _).bind _)

theorem ending_of_run_strange :
    request ["wire.txt", "wire.jed", "wire"] =
      .ok ({ files := ["wire.txt", "wire.jed", "wire"] }, wireJob "wire.txt") ∧
    ∃ e, (run wireSetting ["wire.txt", "wire.jed", "wire"] strangeFiles).ending = .aborted e ∧
      Unreported wireSetting { files := ["wire.txt", "wire.jed", "wire"] } (wireJob "wire.txt")
        strangeFiles e := by
  have hending : (run wireSetting ["wire.txt", "wire.jed", "wire"] strangeFiles).ending =
      .aborted .notUtf8 := rfl
  refine ⟨rfl, ?_⟩
  obtain ⟨hexit, -⟩ | ⟨hexit, -⟩ | hunreported := @ending_of_run wireSetting
    ["wire.txt", "wire.jed", "wire"] _ (wireJob "wire.txt") strangeFiles rfl
  · rw [hending] at hexit
    cases hexit
  · rw [hending] at hexit
    cases hexit
  · exact hunreported

/-! ## Failed runs -/

/-- A run that fails changes no file, unless its listing cannot be written: then the fuse file has
been written before. -/
theorem files_of_failed_run (h : request arguments = .ok (o, j))
    (hfailed : (run setting arguments files).ending ≠ .exit 0) :
    (run setting arguments files).world.files = files ∨
      ∃ p place bytes, j.listing? o = some p ∧ (∀ place', ¬ files.Writable p place') ∧
        files.Writable j.output place ∧
        (run setting arguments files).world.files = files.put place bytes := by
  obtain ⟨result, w, files', hrun, hends, hfiles, -⟩ := exists_ends_of_run h setting files
  rw [hrun] at hfailed ⊢
  rw [files_finish, hfiles]
  cases hends with
  | written | listed => exact absurd rfl hfailed
  | failed => exact .inl rfl
  | unlisted _ hlisting hplace hunwritable =>
    exact .inr ⟨_, _, _, hlisting, fun place' h => hunwritable place' (hplace.put h), hplace, rfl⟩

/-- The arguments of a run that lists the wire's design. -/
def wireArguments (source : String) : List String := ["--listing", source, "wire.jed", "wire"]

def wireOptions (source : String) : Options where
  listing := true
  files := [source, "wire.jed", "wire"]

theorem request_wireArguments : request (wireArguments "wire.txt") =
    .ok (wireOptions "wire.txt", wireJob "wire.txt") := rfl

/-- In a directory with the wire's design and profile its fuse file can be made. -/
theorem exists_wire_makes {source : String} {place : Path}
    (hsource : files.read (Path.ofString source) = .ok wireText.toUTF8)
    (hfile : files.isFile (Path.ofString "devices.config") = .ok true)
    (hprofiles : files.read (Path.ofString "devices.config") = .ok wireProfiles.toUTF8)
    (hfuse : files.Writable (Path.ofString "wire.jed") place) :
    ∃ design text d sums, Yields (readDesign wireSetting source) files design files ∧
      Makes wireSetting (wireOptions source) design.tables design.names "wire.jed" "wire" files d
        sums (files.put place (String.toUTF8 text)) := by
  obtain ⟨design, hdesign, hread⟩ := yields_readDesign_wire hsource
  obtain ⟨text, htext⟩ := exists_wire_fuseText
  rw [← hdesign] at htext
  have hdevices : (wireOptions source).devices = some "devices.config" := rfl
  obtain ⟨d, sums, hmakes⟩ := exists_makes hdevices hfile hprofiles htext hfuse design.names
  exact ⟨design, text, d, sums, hread, hmakes⟩

/-- The wire's directory, with another directory at the place of the listing. -/
def blockedFiles : FileSystem := { wireFiles with directories := [⟨.current, ["wire.dnf.txt"]⟩] }

theorem blockedFiles_writable :
    blockedFiles.Writable (Path.ofString "wire.jed") ⟨.current, ["wire.jed"]⟩ := ⟨rfl, rfl⟩

theorem exists_run_blockedFiles : ∃ bytes,
    (run wireSetting (wireArguments "wire.txt") blockedFiles).ending = .exit 1 ∧
    (run wireSetting (wireArguments "wire.txt") blockedFiles).world.files =
      blockedFiles.put ⟨.current, ["wire.jed"]⟩ bytes := by
  obtain ⟨design, text, d, sums, hread, hmakes⟩ :=
    @exists_wire_makes blockedFiles "wire.txt" _ rfl rfl rfl blockedFiles_writable
  have hlocate : blockedFiles.locate (listingPath (Path.ofString "wire.jed")) =
      .ok ⟨.current, ["wire.dnf.txt"]⟩ := rfl
  have hwrite : ∀ bytes, (blockedFiles.put ⟨.current, ["wire.jed"]⟩ text.toUTF8).write
      (listingPath (Path.ofString "wire.jed")) bytes = .error .isDirectory := by
    intro bytes
    rw [write, locate_put blockedFiles_writable hlocate]
    rfl
  have hleaves : Leaves (perform wireSetting (wireOptions "wire.txt") (wireJob "wire.txt"))
      blockedFiles _ _ := hread.bind_leaves (hmakes.leaves_unlisted rfl hwrite _)
  obtain ⟨w, hresult, hfiles⟩ := hleaves { files := blockedFiles } rfl
  rw [run_eq_finish request_wireArguments, hresult]
  exact ⟨_, rfl, hfiles⟩

theorem failed_run_leaves_fuseFile :
    request (wireArguments "wire.txt") = .ok (wireOptions "wire.txt", wireJob "wire.txt") ∧
    (run wireSetting (wireArguments "wire.txt") blockedFiles).ending = .exit 1 ∧
    blockedFiles.read (Path.ofString "wire.jed") = .error .missing ∧
    ∃ bytes, (run wireSetting (wireArguments "wire.txt") blockedFiles).world.files.read
      (Path.ofString "wire.jed") = .ok bytes := by
  obtain ⟨bytes, hending, hfiles⟩ := exists_run_blockedFiles
  refine ⟨request_wireArguments, hending, rfl, bytes, ?_⟩
  rw [hfiles, read_put_self blockedFiles_writable]

theorem files_of_failed_run_blockedFiles :
    request (wireArguments "wire.txt") = .ok (wireOptions "wire.txt", wireJob "wire.txt") ∧
    (run wireSetting (wireArguments "wire.txt") blockedFiles).ending ≠ .exit 0 ∧
    ∃ p place bytes, (wireJob "wire.txt").listing? (wireOptions "wire.txt") = some p ∧
      (∀ place', ¬ blockedFiles.Writable p place') ∧
      blockedFiles.Writable (wireJob "wire.txt").output place ∧
      (run wireSetting (wireArguments "wire.txt") blockedFiles).world.files =
        blockedFiles.put place bytes := by
  obtain ⟨bytes, hending, hfiles⟩ := exists_run_blockedFiles
  have hfailed : (run wireSetting (wireArguments "wire.txt") blockedFiles).ending ≠ .exit 0 := by
    simp [hending]
  refine ⟨request_wireArguments, hfailed, ?_⟩
  obtain hsame | hchanged := files_of_failed_run request_wireArguments hfailed
  · have hread := read_put_self blockedFiles_writable bytes
    rw [← hfiles, hsame] at hread
    cases hread
  · exact hchanged

/-! ## The input of a run -/

/-- A run leaves the file that it reads as it is, unless it is a design and its place is that of the
listing. Such a run succeeds. -/
theorem read_input_of_run (h : request arguments = .ok (o, j)) :
    (run setting arguments files).world.files.read j.input = files.read j.input ∨
      ∃ source fuseFile device, j = .compile source fuseFile device ∧ o.listing = true ∧
        placeOf (listingPath (Path.ofString fuseFile)) = placeOf (Path.ofString source) ∧
        (run setting arguments files).ending = .exit 0 := by
  have hj := hasEndings_of_request h
  obtain ⟨result, w, files', hrun, hends, hfiles, -⟩ := exists_ends_of_run h setting files
  rw [hrun, files_finish, hfiles]
  cases hends with
  | failed => exact .inl rfl
  | written htext _ hplace | unlisted htext _ hplace =>
    obtain ⟨target, htarget⟩ := exists_locate_of_hasText htext
    exact .inl (read_input_put_output hj htarget hplace)
  | @listed _ p place place' bytes _ htext hlisting hplace hplace' =>
    obtain ⟨target, htarget⟩ := exists_locate_of_hasText htext
    have htarget' : (files.put place bytes).locate j.input = .ok target := locate_put hplace htarget
    by_cases heq : target = place'
    · subst heq
      obtain ⟨source, fuseFile, device, rfl, hwanted, hplaces⟩ :=
        exists_compile_of_listing hj hlisting hplace'.locate htarget'
      exact .inr ⟨source, fuseFile, device, rfl, hwanted, hplaces, rfl⟩
    · left
      calc ((files.put place bytes).put place' _).read j.input
          = (files.put place bytes).read j.input := read_put_of_ne hplace' htarget' heq
        _ = files.read j.input := read_input_put_output hj htarget hplace

theorem read_input_of_run_wire :
    request (wireArguments "wire.txt") = .ok (wireOptions "wire.txt", wireJob "wire.txt") ∧
    (run wireSetting (wireArguments "wire.txt") wireFiles).world.files.read
      (Path.ofString "wire.txt") = wireFiles.read (Path.ofString "wire.txt") := by
  refine ⟨request_wireArguments, ?_⟩
  obtain hread | ⟨source, fuseFile, device, hj, -, hplaces, -⟩ :=
    @read_input_of_run wireSetting _ _ _ wireFiles request_wireArguments
  · exact hread
  · cases hj
    exact absurd hplaces (by decide)

theorem exists_name_of_listingText {d : Device} {stem : String} {names : Design.Names}
    {sums : List SumOfProducts} {text : String}
    (h : listingText setting d stem names sums = .ok text) : ∃ rest, text = "Name " ++ rest := by
  obtain ⟨entries, -, h⟩ := bind_eq_ok_iff.1 h
  cases h
  exact ⟨_, by simp only [String.append_assoc]; rfl⟩

/-- The wire's directory, with the design at the place of the listing. -/
def listingFiles : FileSystem where
  files := [(⟨.current, ["wire.dnf.txt"]⟩, wireText.toUTF8),
    (⟨.current, ["devices.config"]⟩, wireProfiles.toUTF8)]

theorem listing_replaces_design :
    request (wireArguments "wire.dnf.txt") =
      .ok (wireOptions "wire.dnf.txt", wireJob "wire.dnf.txt") ∧
    (run wireSetting (wireArguments "wire.dnf.txt") listingFiles).ending = .exit 0 ∧
    (run wireSetting (wireArguments "wire.dnf.txt") listingFiles).world.files.read
      (Path.ofString "wire.dnf.txt") ≠ listingFiles.read (Path.ofString "wire.dnf.txt") := by
  have hrequest : request (wireArguments "wire.dnf.txt") =
      .ok (wireOptions "wire.dnf.txt", wireJob "wire.dnf.txt") := rfl
  have hfuse : listingFiles.Writable (Path.ofString "wire.jed") ⟨.current, ["wire.jed"]⟩ :=
    ⟨rfl, rfl⟩
  have hplace : listingFiles.Writable (Path.ofString "wire.dnf.txt")
      ⟨.current, ["wire.dnf.txt"]⟩ := ⟨rfl, rfl⟩
  obtain ⟨design, text, d, sums, hread, hmakes⟩ :=
    @exists_wire_makes listingFiles "wire.dnf.txt" _ rfl rfl rfl hfuse
  obtain ⟨listing, hlisting, hyields⟩ := hmakes.exists_yields_listed rfl (hfuse.put hplace)
  have hcompile : Yields (perform wireSetting (wireOptions "wire.dnf.txt") (wireJob "wire.dnf.txt"))
      listingFiles () _ := hread.bind (hyields _)
  obtain ⟨w, hresult, hfiles⟩ := hcompile { files := listingFiles } rfl
  have hold : listingFiles.read (Path.ofString "wire.dnf.txt") = .ok wireText.toUTF8 := rfl
  rw [run_eq_finish hrequest, hresult]
  refine ⟨hrequest, rfl, ?_⟩
  rw [files_finish, hfiles, read_put_self (hfuse.put hplace), hold]
  intro heq
  obtain ⟨rest, rfl⟩ := exists_name_of_listingText hlisting
  have htext := congrArg String.toList (String.toByteArray_inj.1 (Except.ok.inj heq))
  simp [wireText] at htext

end FuseMap.Command
