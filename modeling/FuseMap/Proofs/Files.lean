import FuseMap.Main
import FuseMap.Proofs.Success

/-! # Writing files

What a written file changes for later accesses. The directories stay as they are, since those above
the file have been there before (`isDirectory_put`). So a path that could be followed still leads to
the same place (`locate_put`), and a path that does not come by the file leads to the same content
(`read_put_of_notMem`, `isFile_put_of_notMem`). Files with different endings are at different places
(`ending_placeOf`).
-/

namespace FuseMap.Command.FileSystem

variable {fs : FileSystem} {p place other : Path} {bytes : ByteArray}

/-- The file system with a content at a place. -/
def put (fs : FileSystem) (place : Path) (bytes : ByteArray) : FileSystem :=
  { fs with files := insertFile place bytes fs.files }

/-- A path leads to a place where a file can be written. -/
structure Writable (fs : FileSystem) (p place : Path) : Prop where
  locate : fs.locate p = .ok place
  file : fs.isDirectory place = false

theorem write_eq_put (h : fs.Writable p place) (bytes : ByteArray) :
    fs.write p bytes = .ok (fs.put place bytes) := by
  simp [write, h.locate, h.file, put, bind, Except.bind, pure, Except.pure]

theorem lookup_insertFile (files : List (Path × ByteArray)) :
    (insertFile place bytes files).lookup other =
      if other = place then some bytes else files.lookup other := by
  induction files with
  | nil =>
    rw [insertFile, List.lookup_cons]
    split
    · next h => simp [eq_of_beq h]
    · next h => simp [ne_of_beq_false h]
  | cons file files ih =>
    obtain ⟨q, old⟩ := file
    rw [insertFile]
    split
    · next hq =>
      subst hq
      by_cases h : other = q
      · simp [h]
      · simp [h, List.lookup_cons, beq_eq_false_iff_ne.2 h]
    · next hq =>
      rw [List.lookup_cons, List.lookup_cons, ih]
      split
      · next h =>
        rw [if_neg]
        rintro rfl
        exact hq (eq_of_beq h).symm
      · rfl

theorem content?_put : (fs.put place bytes).content? other =
    if other = place then some bytes else fs.content? other :=
  lookup_insertFile fs.files

/-! ## Directories -/

theorem isAbove_iff : isAbove place other = true ↔ place.anchor = other.anchor ∧
    place.parts.length < other.parts.length ∧ place.parts <+: other.parts := by
  simp only [isAbove, Bool.and_eq_true, beq_iff_eq, decide_eq_true_eq, and_assoc,
    List.prefix_iff_eq_take, eq_comm (a := place.parts)]

theorem isAbove_trans {third : Path} (h : isAbove place other = true)
    (h' : isAbove other third = true) : isAbove place third = true := by
  rw [isAbove_iff] at h h' ⊢
  obtain ⟨hanchor, hlength, hprefix⟩ := h
  obtain ⟨hanchor', hlength', hprefix'⟩ := h'
  exact ⟨hanchor.trans hanchor', Nat.lt_trans hlength hlength', hprefix.trans hprefix'⟩

/-- A place is a directory if it is the start or above it, if it is known as one, or if there is
something in it. -/
theorem isDirectory_iff : fs.isDirectory place = true ↔ (∀ part ∈ place.parts, part = "..") ∨
    place ∈ fs.directories ∨ (∃ directory ∈ fs.directories, isAbove place directory = true) ∨
    ∃ file ∈ fs.files, isAbove place file.1 = true := by
  simp [isDirectory, or_assoc]

/-- What lies above a directory is a directory. -/
theorem isDirectory_of_isAbove (h : isAbove place other = true)
    (hother : fs.isDirectory other = true) : fs.isDirectory place = true := by
  rw [isDirectory_iff] at hother ⊢
  rcases hother with hdots | hmem | ⟨directory, hmem, habove⟩ | ⟨file, hmem, habove⟩
  · exact .inl fun part hpart => hdots part ((isAbove_iff.1 h).2.2.subset hpart)
  · exact .inr (.inr (.inl ⟨other, hmem, h⟩))
  · exact .inr (.inr (.inl ⟨directory, hmem, isAbove_trans h habove⟩))
  · exact .inr (.inr (.inr ⟨file, hmem, isAbove_trans h habove⟩))

/-- A place in a directory. -/
def InDirectory (fs : FileSystem) (place : Path) : Prop :=
  ∃ directory part, place = directory.child part ∧ fs.isDirectory directory = true

/-- A part leads from a directory to another, or to a place in it. -/
theorem step_spec (h : fs.isDirectory place = true) (part : String) :
    fs.isDirectory (step place part) = true ∨ fs.InDirectory (step place part) := by
  unfold step
  split
  · split
    · split
      · exact .inl h
      · exact .inr ⟨place, part, rfl, h⟩
    · next hdots =>
      have hne : place.parts ≠ [] := by
        intro hnil
        simp [hnil] at hdots
      have hlength : place.parts.dropLast.length < place.parts.length := by
        have := List.length_pos_of_ne_nil hne
        rw [List.length_dropLast]
        omega
      have habove : isAbove place.parent place = true :=
        isAbove_iff.2 ⟨rfl, hlength, List.dropLast_prefix _⟩
      exact .inl (isDirectory_of_isAbove habove h)
  · exact .inr ⟨place, part, rfl, h⟩

theorem follow_spec {start : Path} {parts : List String}
    (hstart : fs.isDirectory start = true ∨ fs.InDirectory start)
    (h : fs.follow start parts = .ok place) :
    fs.isDirectory place = true ∨ fs.InDirectory place := by
  induction parts generalizing start with
  | nil =>
    cases h
    exact hstart
  | cons part parts ih =>
    simp only [follow, ite_error_eq_ok_iff, not_not] at h
    obtain ⟨-, hdirectory, -, hrest⟩ := h
    exact ih (step_spec hdirectory part) hrest

theorem Writable.inDirectory (h : fs.Writable p place) : fs.InDirectory place := by
  have hlocate := h.locate
  simp only [FileSystem.locate, ite_error_eq_ok_iff] at hlocate
  have hanchor : fs.isDirectory ⟨p.anchor.usual, []⟩ = true := isDirectory_iff.2 (.inl (by simp))
  rcases follow_spec (.inl hanchor) hlocate.2.2 with hdirectory | hplace
  · rw [h.file] at hdirectory
    cases hdirectory
  · exact hplace

theorem any_insertFile (place : Path) (bytes : ByteArray) (q : Path → Bool)
    (files : List (Path × ByteArray)) :
    (insertFile place bytes files).any (fun file => q file.1) =
      (q place || files.any fun file => q file.1) := by
  induction files with
  | nil => rfl
  | cons file files ih =>
    obtain ⟨path, old⟩ := file
    rw [insertFile]
    split
    · next hpath => simp [hpath]
    · simp [ih, Bool.or_left_comm]

/-- The directories above a written file have been there before. -/
theorem isDirectory_put (h : fs.InDirectory place) :
    (fs.put place bytes).isDirectory other = fs.isDirectory other := by
  have habove : isAbove other place = true → fs.isDirectory other = true := by
    intro hother
    obtain ⟨directory, part, rfl, hdirectory⟩ := h
    obtain ⟨hanchor, hlength, hprefix⟩ := isAbove_iff.1 hother
    simp only [Path.child, List.length_append, List.length_singleton] at hlength
    have hparts : other.parts <+: directory.parts := by
      rcases List.prefix_concat_iff.1 hprefix with heq | hprefix
      · rw [heq] at hlength
        simp at hlength
      · exact hprefix
    rcases Nat.eq_or_lt_of_le hparts.length_le with hlength' | hlength'
    · have heq : other = directory := by
        obtain ⟨anchor, parts⟩ := other
        obtain ⟨anchor', parts'⟩ := directory
        obtain rfl : anchor = anchor' := hanchor
        obtain rfl : parts = parts' := hparts.eq_of_length hlength'
        rfl
      rw [heq, hdirectory]
    · have hother' : isAbove other directory = true := isAbove_iff.2 ⟨hanchor, hlength', hparts⟩
      exact isDirectory_of_isAbove hother' hdirectory
  have hfiles := any_insertFile place bytes (isAbove other) fs.files
  simp only [isDirectory, put] at habove ⊢
  rw [hfiles]
  cases hplace : isAbove other place with
  | false => rw [Bool.false_or]
  | true => simp only [habove hplace, Bool.true_or, Bool.or_true]

/-! ## Ways -/

/-- A new file does not stand in the way of a path that led somewhere. -/
theorem follow_put_of_ok {start : Path} {parts : List String} {target : Path}
    (hplace : fs.InDirectory place) (hfile : fs.isDirectory place = false)
    (h : fs.follow start parts = .ok target) :
    (fs.put place bytes).follow start parts = .ok target := by
  induction parts generalizing start with
  | nil => exact h
  | cons part parts ih =>
    simp only [follow, ite_error_eq_ok_iff, not_not] at h ⊢
    obtain ⟨hcontent, hdirectory, hlength, hrest⟩ := h
    have hne : start ≠ place := by
      rintro rfl
      rw [hdirectory] at hfile
      cases hfile
    rw [isDirectory_put hplace, content?_put, if_neg hne]
    exact ⟨hcontent, hdirectory, hlength, ih hrest⟩

theorem locate_put (h : fs.Writable p place) {q target : Path} (hq : fs.locate q = .ok target) :
    (fs.put place bytes).locate q = .ok target := by
  simp only [locate, ite_error_eq_ok_iff] at hq ⊢
  exact ⟨hq.1, hq.2.1, follow_put_of_ok h.inDirectory h.file hq.2.2⟩

/-- Where a file could be written, it still can after another one is. -/
theorem Writable.put (h : fs.Writable p place) {q target : Path} (hq : fs.Writable q target) :
    (fs.put place bytes).Writable q target :=
  ⟨locate_put h hq.locate, by rw [isDirectory_put h.inDirectory, hq.file]⟩

/-- A written file is read back. -/
theorem read_put_self (h : fs.Writable p place) (bytes : ByteArray) :
    (fs.put place bytes).read p = .ok bytes := by
  rw [read, locate_put h h.locate]
  simp [bind, Except.bind, content?_put, pure, Except.pure]

/-- A file at another place stays as it was. -/
theorem read_put_of_ne (h : fs.Writable p place) {q target : Path} (hq : fs.locate q = .ok target)
    (hne : target ≠ place) : (fs.put place bytes).read q = fs.read q := by
  rw [read, read, locate_put h hq, hq]
  simp only [bind, Except.bind, content?_put, if_neg hne, isDirectory_put h.inDirectory]

/-- Where a path leads is read off its parts. -/
theorem eq_foldl_of_follow {start target : Path} {parts : List String}
    (h : fs.follow start parts = .ok target) : target = parts.foldl step start := by
  induction parts generalizing start with
  | nil =>
    cases h
    rfl
  | cons part parts ih =>
    simp only [follow, ite_error_eq_ok_iff] at h
    exact ih h.2.2.2

theorem eq_placeOf_of_locate {target : Path} (h : fs.locate p = .ok target) :
    target = placeOf p := by
  simp only [locate, ite_error_eq_ok_iff] at h
  exact eq_foldl_of_follow h.2.2

/-- A path that does not pass through the new file leads where it led. -/
theorem follow_put_of_ne {start : Path} {parts : List String} (hplace : fs.InDirectory place)
    (h : ∀ n < parts.length, (parts.take n).foldl step start ≠ place) :
    (fs.put place bytes).follow start parts = fs.follow start parts := by
  induction parts generalizing start with
  | nil => rfl
  | cons part parts ih =>
    have hstart : start ≠ place := h 0 (Nat.zero_lt_succ _)
    rw [follow, follow, content?_put, if_neg hstart, isDirectory_put hplace, ih]
    intro n hn
    exact h (n + 1) (Nat.succ_lt_succ hn)

/-- A file lies on the way of a path only where `Path.places` says so, since it is no anchor. -/
theorem Writable.ne_of_notMem (h : fs.Writable p place) {q : Path} (hq : place ∉ q.places) {n : Nat}
    (hn : n ≤ q.parts.length) : (q.parts.take n).foldl step ⟨q.anchor.usual, []⟩ ≠ place := by
  cases n with
  | zero =>
    rintro rfl
    have hanchor : fs.isDirectory ⟨q.anchor.usual, []⟩ = true := isDirectory_iff.2 (.inl (by simp))
    exact Bool.false_ne_true (h.file.symm.trans hanchor)
  | succ n =>
    intro heq
    exact hq (List.mem_map.2 ⟨n, List.mem_range.2 hn, heq⟩)

theorem locate_put_of_notMem (h : fs.Writable p place) {q : Path} (hq : place ∉ q.places) :
    (fs.put place bytes).locate q = fs.locate q := by
  have hfollow : (fs.put place bytes).follow ⟨q.anchor.usual, []⟩ q.parts =
      fs.follow ⟨q.anchor.usual, []⟩ q.parts := by
    refine follow_put_of_ne h.inDirectory fun n hn => ?_
    exact h.ne_of_notMem hq (Nat.le_of_lt hn)
  rw [locate, locate, hfollow]

theorem Writable.ne_of_locate (h : fs.Writable p place) {q target : Path} (hq : place ∉ q.places)
    (htarget : fs.locate q = .ok target) : target ≠ place := by
  have hne := h.ne_of_notMem hq (Nat.le_refl _)
  rw [List.take_length] at hne
  rwa [eq_placeOf_of_locate htarget]

/-- A path that has nothing to do with the new file reads what it read. -/
theorem read_put_of_notMem (h : fs.Writable p place) {q : Path} (hq : place ∉ q.places) :
    (fs.put place bytes).read q = fs.read q := by
  cases htarget : fs.locate q with
  | ok target => exact read_put_of_ne h htarget (h.ne_of_locate hq htarget)
  | error e => rw [read, read, locate_put_of_notMem h hq, htarget]; rfl

theorem isFile_put_of_notMem (h : fs.Writable p place) {q : Path} (hq : place ∉ q.places) :
    (fs.put place bytes).isFile q = fs.isFile q := by
  rw [isFile, isFile, locate_put_of_notMem h hq]
  cases htarget : fs.locate q with
  | ok target => simp only [content?_put, if_neg (h.ne_of_locate hq htarget)]
  | error e => cases e <;> rfl

/-! ## Endings -/

theorem name_child (p : Path) (part : String) : (p.child part).name = part := by
  simp [Path.name, Path.child]

/-- A file keeps its ending where its path leads to: a name with an ending is no double dot. -/
theorem ending_placeOf (h : p.ending ≠ "") : (placeOf p).ending = p.ending := by
  have hne : ∀ name, Path.splitEnding? name = none → p.name ≠ name := by
    rintro name hname rfl
    rw [Path.ending, hname] at h
    exact h rfl
  rcases List.eq_nil_or_concat p.parts with hnil | ⟨front, part, hparts⟩
  · exact absurd (by simp [Path.name, hnil]) (hne "" rfl)
  · have hname : p.name = part := by simp [Path.name, hparts]
    have hplace : (placeOf p).name = part := by
      rw [placeOf, hparts, List.concat_eq_append, List.foldl_concat, step,
        if_neg (hname ▸ hne ".." rfl), name_child]
    rw [Path.ending, Path.ending, hname, hplace]

/-- Paths with different endings lead to different places. -/
theorem ne_of_ending {q target target' : Path} (hp : fs.locate p = .ok target)
    (hq : fs.locate q = .ok target') (hpe : p.ending ≠ "") (hqe : q.ending ≠ "")
    (hne : p.ending ≠ q.ending) : target ≠ target' := by
  rintro rfl
  rw [← ending_placeOf hpe, ← ending_placeOf hqe, ← eq_placeOf_of_locate hp,
    ← eq_placeOf_of_locate hq] at hne
  exact hne rfl

theorem ending_listing (directory : Path) (stem : String) :
    (directory.child (stem ++ ".dnf.txt")).ending = "txt" := by
  have hsplit : Path.splitEnding? (stem ++ ".dnf.txt") = some (stem ++ ".dnf", "txt") := by
    simp [Path.splitEnding?]
  rw [Path.ending, name_child, hsplit]
  rfl

end FuseMap.Command.FileSystem
