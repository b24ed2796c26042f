import FuseMap.Proofs.Files

/-! # Steps of a run

Sessions are followed by the file systems they go through, not by what they print. A session that
succeeds is described by its result and the file system it leaves (`Yields`), one that does not by
its failure (`Fails`), or also by the file system it leaves (`Leaves`), and two sessions in
different file systems are compared step by step (`Alike`).
-/

namespace FuseMap.Command.Session

variable {α β : Type}

/-- The result of a session that starts in a world, and the world it leaves. -/
def result (x : Session α) (w : World) : Except Failure α × World := x.run w

/-- A session succeeds with a result and changes the file system into another. -/
def Yields (x : Session α) (files : FileSystem) (a : α) (files' : FileSystem) : Prop :=
  ∀ w, w.files = files → ∃ w', x.result w = (.ok a, w') ∧ w'.files = files'

def Fails (x : Session α) (files : FileSystem) (f : Failure) : Prop :=
  ∀ w, w.files = files → (x.result w).1 = .error f

/-- A session fails after it has changed the file system into another. -/
def Leaves (x : Session α) (files : FileSystem) (f : Failure) (files' : FileSystem) : Prop :=
  ∀ w, w.files = files → ∃ w', x.result w = (.error f, w') ∧ w'.files = files'

/-- Two sessions give the same result in file systems that `P` relates, and if they succeed they
leave file systems that `Q` relates. -/
def Alike (P Q : FileSystem → FileSystem → Prop) (x y : Session α) : Prop :=
  ∀ w w', P w.files w'.files → (x.result w).1 = (y.result w').1 ∧
    ∀ a, (x.result w).1 = .ok a → Q (x.result w).2.files (y.result w').2.files

def At (files files' : FileSystem) (fs fs' : FileSystem) : Prop := fs = files ∧ fs' = files'

variable {x y : Session α} {f g : α → Session β} {files files' files₁ files₂ : FileSystem} {a : α}
  {b : β}

theorem result_bind (x : Session α) (f : α → Session β) (w : World) :
    (x >>= f).result w = match x.result w with
      | (.ok a, w') => (f a).result w'
      | (.error e, w') => (.error e, w') := by
  change (ExceptT.bindCont f (x.result w).1).run (x.result w).2 = _
  rcases x.result w with ⟨e | a, w'⟩
  · rfl
  · rfl

/-! ## Successes and failures -/

/-- The second step starts with the file system that the first leaves. -/
theorem Yields.bind (h : Yields x files a files₁) (hf : Yields (f a) files₁ b files₂) :
    Yields (x >>= f) files b files₂ := by
  intro w hw
  obtain ⟨w₁, hresult, hw₁⟩ := h w hw
  rw [result_bind, hresult]
  exact hf w₁ hw₁

/-- A failure of the second step is one of both. -/
theorem Yields.bind_fails {e : Failure} (h : Yields x files a files₁)
    (hf : Fails (f a) files₁ e) : Fails (x >>= f) files e := by
  intro w hw
  obtain ⟨w₁, hresult, hw₁⟩ := h w hw
  rw [result_bind, hresult]
  exact hf w₁ hw₁

/-- After a failure nothing else is done. -/
theorem Fails.bind {e : Failure} (h : Fails x files e) (f : α → Session β) :
    Fails (x >>= f) files e := by
  intro w hw
  have hresult := h w hw
  rcases hx : x.result w with ⟨r, w'⟩
  rw [hx] at hresult
  obtain rfl : r = .error e := hresult
  rw [result_bind, hx]

theorem Yields.bind_leaves {e : Failure} (h : Yields x files a files₁)
    (hf : Leaves (f a) files₁ e files₂) : Leaves (x >>= f) files e files₂ := by
  intro w hw
  obtain ⟨w₁, hresult, hw₁⟩ := h w hw
  rw [result_bind, hresult]
  exact hf w₁ hw₁

theorem Leaves.bind {e : Failure} (h : Leaves x files e files') (f : α → Session β) :
    Leaves (x >>= f) files e files' := by
  intro w hw
  obtain ⟨w', hresult, hw'⟩ := h w hw
  rw [result_bind, hresult]
  exact ⟨w', rfl, hw'⟩

theorem yields_get_bind {f : World → Session β}
    (h : ∀ w, w.files = files → Yields (f w) files b files') : Yields (get >>= f) files b files' :=
  fun w hw => h w hw w hw

theorem fails_get_bind {f : World → Session β} {e : Failure}
    (h : ∀ w, w.files = files → Fails (f w) files e) : Fails (get >>= f) files e :=
  fun w hw => h w hw w hw

theorem yields_pure (a : α) : Yields (pure a) files a files :=
  fun w hw => ⟨w, rfl, hw⟩

theorem yields_say (line : String) : Yields (say line) files () files :=
  fun _ hw => ⟨_, rfl, hw⟩

theorem yields_forM_say (lines : List String) (text : String → String) :
    Yields (lines.forM fun line => say (text line)) files () files := by
  induction lines with
  | nil => exact yields_pure ()
  | cons line lines ih => exact (yields_say _).bind ih

theorem yields_check {r : Except Error α} (h : r = .ok a) : Yields (check r) files a files := by
  rw [h]
  exact yields_pure a

theorem fails_check {r : Except Error α} {e : Error} (h : r = .error e) :
    Fails (check r) files (.failed e) := by
  rw [h]
  exact fun _ _ => rfl

theorem yields_access {r : Except FileError α} (h : r = .ok a) (p : Path) :
    Yields (access p r) files a files := by
  rw [h]
  exact yields_pure a

theorem yields_decode (s : String) :
    Yields (decode s.toUTF8) files (Text.unifyNewlines s.toList) files := by
  have hdecode : String.fromUTF8? s.toUTF8 = some s := dif_pos s.isValidUTF8
  rw [decode, hdecode]
  exact yields_pure _

/-- A text file is read with one kind of line end. -/
theorem yields_readText {p : Path} {s : String} (h : files.read p = .ok s.toUTF8) :
    Yields (readText p) files (Text.unifyNewlines s.toList) files := by
  refine yields_get_bind fun w hw => ?_
  exact (yields_access (hw ▸ h) p).bind (yields_decode s)

/-- A text file is written at the place that its path leads to. -/
theorem yields_writeText {p place : Path} (h : files.Writable p place) (text : String) :
    Yields (writeText p text) files () (files.put place text.toUTF8) := by
  refine yields_get_bind ?_
  rintro w rfl
  refine (yields_access (FileSystem.write_eq_put h text.toUTF8) p).bind ?_
  exact fun v _ => ⟨{ v with files := w.files.put place text.toUTF8 }, rfl, rfl⟩

theorem leaves_writeText {p : Path} {text : String} {e : FileError}
    (h : files.write p text.toUTF8 = .error e) :
    Leaves (writeText p text) files (fileFailure e p) files := by
  rintro w rfl
  refine ⟨w, ?_, rfl⟩
  change (access p (w.files.write p text.toUTF8) >>= _ : Session Unit).result w = _
  rw [h]
  rfl

/-- Reading a file gives a text or fails; in both cases it changes nothing. -/
theorem yields_or_fails_readText (p : Path) (files : FileSystem) :
    (∃ text, Yields (readText p) files text files) ∨ ∃ e, Fails (readText p) files e := by
  cases hread : files.read p with
  | error e =>
    refine .inr ⟨fileFailure e p, fails_get_bind fun w hw => ?_⟩
    rw [hw, hread]
    exact fun _ _ => rfl
  | ok bytes =>
    have hfiles : ∀ {w : World}, w.files = files → w.files.read p = .ok bytes := by
      rintro w rfl
      exact hread
    cases hdecode : String.fromUTF8? bytes with
    | none =>
      refine .inr ⟨.failed .notUtf8, fails_get_bind fun w hw => ?_⟩
      refine (yields_access (hfiles hw) p).bind_fails ?_
      rw [decode, hdecode]
      exact fun _ _ => rfl
    | some s =>
      refine .inl ⟨Text.unifyNewlines s.toList, yields_get_bind fun w hw => ?_⟩
      refine (yields_access (hfiles hw) p).bind ?_
      rw [decode, hdecode]
      exact yields_pure _

/-! ## Sessions side by side -/

section
variable {P Q R : FileSystem → FileSystem → Prop}

/-- Sessions stay alike if every step leaves them so. -/
theorem Alike.bind (h : Alike P Q x y) (hf : ∀ a, Alike Q R (f a) (g a)) :
    Alike P R (x >>= f) (y >>= g) := by
  intro w w' hw
  obtain ⟨hresult, hfiles⟩ := h w w' hw
  rw [result_bind, result_bind]
  rcases hx : x.result w with ⟨rx, wx⟩
  rcases hy : y.result w' with ⟨ry, wy⟩
  rw [hx, hy] at hresult hfiles
  obtain rfl : rx = ry := hresult
  cases rx with
  | ok a => exact hf a wx wy (hfiles a rfl)
  | error e => exact ⟨rfl, fun a ha => nomatch ha⟩

/-- Two sessions that succeed with the same result are alike. -/
theorem Yields.alike (hx : Yields x files a files₁) (hy : Yields y files' a files₂)
    (h : Q files₁ files₂) : Alike (At files files') Q x y := by
  rintro w w' ⟨hw, hw'⟩
  obtain ⟨v, hv, rfl⟩ := hx w hw
  obtain ⟨v', hv', rfl⟩ := hy w' hw'
  rw [hv, hv']
  exact ⟨rfl, fun _ _ => h⟩

/-- A step of one session alone, if it succeeds, leaves the two alike. -/
theorem Yields.alike_left {y : Session β} (hx : Yields x files a files₁)
    (h : Alike (At files₁ files') Q (f a) y) : Alike (At files files') Q (x >>= f) y := by
  rintro w w' ⟨hw, hw'⟩
  obtain ⟨v, hv, hfiles⟩ := hx w hw
  rw [result_bind, hv]
  exact h v w' ⟨hfiles, hw'⟩

theorem Yields.alike_right {x : Session β} (hy : Yields y files' a files₁)
    (h : Alike (At files files₁) Q x (g a)) : Alike (At files files') Q x (y >>= g) := by
  rintro w w' ⟨hw, hw'⟩
  obtain ⟨v, hv, hfiles⟩ := hy w' hw'
  rw [result_bind, hv]
  exact h w v ⟨hw, hfiles⟩

theorem alike_pure (a : α) : Alike P P (pure a : Session α) (pure a) :=
  fun _ _ h => ⟨rfl, fun _ _ => h⟩

theorem alike_throw (e : Failure) : Alike P Q (throw e : Session α) (throw e) :=
  fun _ _ _ => ⟨rfl, fun _ h => nomatch h⟩

/-- What is printed does not matter. -/
theorem alike_say (line line' : String) : Alike P P (say line) (say line') :=
  fun _ _ h => ⟨rfl, fun _ _ => h⟩

theorem alike_forM_say (lines : List String) (text : String → String) :
    Alike P P (lines.forM fun line => say (text line))
      (lines.forM fun line => say (text line)) := by
  induction lines with
  | nil => exact alike_pure ()
  | cons line lines ih => exact (alike_say _ _).bind fun _ => ih

/-- After a check its result is known. -/
theorem alike_check_bind {r : Except Error α} (h : ∀ a, r = .ok a → Alike P Q (f a) (g a)) :
    Alike P Q (check r >>= f) (check r >>= g) := by
  cases r with
  | ok a => exact h a rfl
  | error e => exact alike_throw _

theorem alike_check (r : Except Error α) : Alike P P (check r) (check r) := by
  cases r with
  | ok a => exact alike_pure a
  | error e => exact alike_throw _

theorem alike_access (p : Path) (r : Except FileError α) : Alike P P (access p r) (access p r) := by
  cases r with
  | ok a => exact alike_pure a
  | error e => exact alike_throw _

theorem alike_decode (bytes : ByteArray) : Alike P P (decode bytes) (decode bytes) := by
  unfold decode
  split
  · exact alike_pure _
  · exact alike_throw _

/-- Of the world, only the file system matters for what is done next. -/
theorem alike_get_bind {f g : World → Session β}
    (h : ∀ w w', w.files = files → w'.files = files' → Alike (At files files') Q (f w) (g w')) :
    Alike (At files files') Q (get >>= f) (get >>= g) :=
  fun w w' hw => h w w' hw.1 hw.2 w w' hw

end

end FuseMap.Command.Session
