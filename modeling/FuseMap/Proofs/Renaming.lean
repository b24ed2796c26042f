import FuseMap.Proofs.Likeness
import Mathlib.Data.Set.Function
import Mathlib.Logic.Equiv.Basic

/-! # Names carry no meaning

If the names in a script are replaced, different ones by different ones, the script keeps its tables
and its pins, or is refused in the same line (`ofScript_rename`): a script and the renamed one are
alike in the sense of `FuseMap.Proofs.Likeness`.
-/

namespace FuseMap.Design

/-- The token with another name, if it is a name. -/
def Token.rename (f : String → String) : Token → Token
  | .identifier name => .identifier (f name)
  | t => t

def Script.rename (f : String → String) (script : Script) : Script where
  lexemes := script.lexemes.map fun x => ⟨x.token.rename f, x.line⟩
  lastLine := script.lastLine

def Script.names (script : Script) : Set String :=
  {name | .identifier name ∈ tokens script.lexemes}

def Names.rename (f : String → String) (names : Names) : Names :=
  names.map fun entry => (entry.1, f entry.2)

section

variable {f : String → String} {names : Set String} {script : Script}

/-- Names correspond to what they are replaced by, and lines to themselves. -/
def Correspondence.ofRenaming (hf : Set.InjOn f names) : Correspondence where
  Name a b := a ∈ names ∧ b = f a
  Line := Eq
  name_iff := by
    rintro a a' b b' ⟨ha, rfl⟩ ⟨ha', rfl⟩
    exact (hf.eq_iff ha ha').symm

theorem like_rename (hf : Set.InjOn f script.names) :
    script.Like (.ofRenaming hf) (script.rename f) where
  lexemes := by
    refine List.forall₂_map_right_iff.2 (List.forall₂_same.2 fun x hx => ⟨?_, rfl⟩)
    obtain ⟨token, line⟩ := x
    cases token with
    | identifier name =>
      have hname : .identifier name ∈ tokens script.lexemes :=
        List.mem_map_of_mem (f := Lexeme.token) hx
      exact .identifier ⟨hname, rfl⟩
    | keyword k => exact .keyword k
    | number digits => exact .number digits
    | arrow => exact .arrow
    | symbol s => exact .symbol s
  lastLine := rfl

theorem eq_rename_of_namesAlike {hf : Set.InjOn f names} {declared declared' : Names}
    (h : NamesAlike (.ofRenaming hf) declared declared') : declared' = declared.rename f := by
  induction h with
  | nil => rfl
  | @cons p q _ _ hpq _ ih =>
    obtain ⟨pin, name⟩ := p
    obtain ⟨_, _⟩ := q
    obtain ⟨rfl, -, rfl⟩ := hpq
    rw [ih]
    rfl

/-- A script and the same script with other names are both designs or both none. As designs they
have the same tables, and the pins of the one have the names of the other replaced; otherwise they
are refused in the same line. -/
theorem ofScript_rename (hf : Set.InjOn f script.names) :
    ((∃ design, ofScript (script.rename f) = .ok design) ↔
      ∃ design, ofScript script = .ok design) ∧
    (∀ {design design'}, ofScript script = .ok design → ofScript (script.rename f) = .ok design' →
      design'.tables = design.tables ∧ design'.names = design.names.rename f) ∧
    (∀ {e e'}, ofScript script = .error e → ofScript (script.rename f) = .error e' →
      e'.line = e.line) := by
  obtain ⟨d, d', hd, hd', htables, hnames⟩ | ⟨e, e', he, he', hline⟩ :=
    alike_ofScript (like_rename hf)
  · refine ⟨⟨fun _ => ⟨d, hd⟩, fun _ => ⟨d', hd'⟩⟩, fun h h' => ?_, fun h => ?_⟩
    · cases hd.symm.trans h
      cases hd'.symm.trans h'
      exact ⟨htables.symm, eq_rename_of_namesAlike hnames⟩
    · cases hd.symm.trans h
  · refine ⟨⟨fun ⟨_, h⟩ => ?_, fun ⟨_, h⟩ => ?_⟩, fun h => ?_, fun h h' => ?_⟩
    · cases he'.symm.trans h
    · cases he.symm.trans h
    · cases he.symm.trans h
    · cases he.symm.trans h
      cases he'.symm.trans h'
      exact hline.symm

end

/-- Names of a text that is a design, exchanged, and those of a text whose second line uses a name
that is not declared. -/
theorem ofScript_rename_swap :
    (∃ script design, lex "pin 1, 2 = a, x;\nx = !a;" = .ok script ∧
      ofScript (script.rename (Equiv.swap "a" "x")) = .ok design ∧
      design.names = [(1, "x"), (2, "a")] ∧ design.tables = [⟨2, false, [1], [true, false]⟩]) ∧
    ∃ script e, lex "pin 1 = a;\na = x;" = .ok script ∧
      ofScript (script.rename (Equiv.swap "a" "x")) = .error e ∧ e.line = 2 := by
  have hinj (names : Set String) : Set.InjOn (Equiv.swap "a" "x") names :=
    (Equiv.injective _).injOn
  constructor
  · obtain ⟨script, design, hlex, hread, htables, hnames⟩ : ∃ script design,
        lex "pin 1, 2 = a, x;\nx = !a;" = .ok script ∧ ofScript script = .ok design ∧
          design.tables = [⟨2, false, [1], [true, false]⟩] ∧
          design.names = [(1, "a"), (2, "x")] := ⟨_, _, rfl, rfl, rfl, rfl⟩
    obtain ⟨hiff, hsame, -⟩ := ofScript_rename (hinj script.names)
    obtain ⟨design', hread'⟩ := hiff.2 ⟨design, hread⟩
    obtain ⟨htables', hnames'⟩ := hsame hread hread'
    refine ⟨script, design', hlex, hread', ?_, htables'.trans htables⟩
    rw [hnames', hnames]
    rfl
  · obtain ⟨script, e, hlex, hread, hline⟩ : ∃ script e, lex "pin 1 = a;\na = x;" = .ok script ∧
        ofScript script = .error e ∧ e.line = 2 := ⟨_, _, rfl, rfl, rfl⟩
    obtain ⟨hiff, -, hlines⟩ := ofScript_rename (hinj script.names)
    cases hread' : ofScript (script.rename (Equiv.swap "a" "x")) with
    | ok design' =>
      obtain ⟨design, hok⟩ := hiff.1 ⟨design', hread'⟩
      cases hread.symm.trans hok
    | error e' => exact ⟨script, e', hlex, hread', (hlines hread hread').trans hline⟩

end FuseMap.Design
