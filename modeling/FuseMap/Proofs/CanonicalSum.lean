import FuseMap.Proofs.Minterm
import Mathlib.Data.List.Nodup

/-! # Canonical sums

Every term of the sum of a truth table is the minterm of one index (`ProductTerm.index`), and the
indices of the terms ascend. Hence no two terms are true at once, and the entries of the table can
be read off the sum (`SumOfProducts.entries`). `SumOfProducts.Canonical` puts this together.
-/

namespace FuseMap

/-! ## Evaluation

A sum is evaluated with values for some of the pins. If the pins of its literals are among them,
the result is that of any total assignment with these values.
-/

section
variable {values : Int → Option Bool} {pins : Int → Bool}

theorem ProductTerm.value?_eq_ok {t : ProductTerm}
    (h : ∀ l ∈ t, values l.pin = some (pins l.pin)) : t.value? values = .ok (t.holds pins) := by
  induction t with
  | nil => rfl
  | cons l t ih =>
    have ⟨hl, ht⟩ := List.forall_mem_cons.1 h
    have hvalue : value? values (l :: t) =
        if pins l.pin != l.inverted then value? values t else .ok false := by
      rw [value?, hl]
    have hholds : holds pins (l :: t) = (pins l.pin != l.inverted && holds pins t) := rfl
    rw [hvalue, ih ht, hholds]
    cases pins l.pin != l.inverted <;> rfl

/-- If the pins of all terms have values, the sum has one. -/
theorem SumOfProducts.value?_eq_ok {s : SumOfProducts}
    (h : ∀ t ∈ s.terms, ∀ l ∈ t, values l.pin = some (pins l.pin)) :
    s.value? values = .ok (s.holds pins) := by
  rw [value?, holds]
  generalize s.terms = terms at h
  induction terms with
  | nil => rfl
  | cons t terms ih =>
    have ⟨ht, hterms⟩ := List.forall_mem_cons.1 h
    rw [termsValue?, ProductTerm.value?_eq_ok ht, List.any_cons]
    cases t.holds pins with
    | true => rfl
    | false => exact ih hterms

end

/-! ## The index of a term -/

/-- The number that a term stands for: its binary digits are 1 for the pins of the term and 0 for
complements, the first literal being the most significant. -/
def ProductTerm.index (t : ProductTerm) : Nat :=
  Design.bitsValue (t.map fun l => !l.inverted)

theorem ProductTerm.index_ofBits (k : Nat) (inputPins : List Int) :
    (ofBits k inputPins).index = k % TruthTable.combinations inputPins.length := by
  induction inputPins with
  | nil => simp [ofBits, index, Design.bitsValue, TruthTable.combinations, Nat.mod_one]
  | cons pin rest ih =>
    have hlength : (ofBits k rest).length = rest.length := by
      rw [← List.length_map (f := (·.pin)), ← pins, pins_ofBits]
    have hbit : (!(k / TruthTable.combinations rest.length % 2 == 0)).toNat =
        k / TruthTable.combinations rest.length % 2 := by
      rcases Nat.mod_two_eq_zero_or_one (k / TruthTable.combinations rest.length) with h | h <;>
        rw [h] <;> rfl
    rw [ofBits_cons, index, List.map_cons, Design.bitsValue_cons, ← index, ih, List.length_map,
      hlength, hbit, List.length_cons, TruthTable.combinations_succ, Nat.mod_mul]
    grind

/-- The input pins of a table are given the values that `pins` has for them. -/
def TruthTable.Assigns (t : TruthTable) (values : Int → Option Bool) (pins : Int → Bool) : Prop :=
  ∀ pin ∈ t.inputPins, values pin = some (pins pin)

/-- The entries of the table with the given number of inputs that a sum of minterms belongs to: the
true ones are those that a term stands for. -/
def SumOfProducts.entries (s : SumOfProducts) (inputs : Nat) : List Bool :=
  (List.range (TruthTable.combinations inputs)).map (s.terms.map ProductTerm.index).contains

namespace SumOfProducts

variable {t : TruthTable} {s : SumOfProducts}

/-- The terms come in the order of the true entries. -/
theorem map_index_minterms {inputPins : List Int} {entries : List Bool}
    (hlen : entries.length = TruthTable.combinations inputPins.length) :
    (minterms inputPins entries).map ProductTerm.index = entries.findIdxs id := by
  rw [minterms_eq_map, List.map_map]
  refine (List.map_congr_left fun k hk => ?_).trans (List.map_id _)
  have hlt : k < entries.length := List.lt_add_of_mem_findIdxs k hk
  rw [Function.comp_apply, ProductTerm.index_ofBits, ← hlen, Nat.mod_eq_of_lt hlt, id_eq]

/-- The term is true for the values that make up its index. -/
theorem holds_iff_index_eq {term : ProductTerm} (hterm : term ∈ minterms t.inputPins t.entries)
    (pins : Int → Bool) : term.holds pins = true ↔ t.index pins = term.index := by
  rw [minterms_eq_map] at hterm
  obtain ⟨k, -, rfl⟩ := List.mem_map.1 hterm
  rw [ProductTerm.holds_ofBits, ProductTerm.index_ofBits, TruthTable.index, eq_comm]

theorem entries_eq (hlen : t.entries.length = TruthTable.combinations t.inputPins.length)
    {registered : Bool} :
    entries ⟨t.outputPin, registered, minterms t.inputPins t.entries⟩ t.inputPins.length =
      t.entries := by
  rw [entries, map_index_minterms hlen, ← hlen]
  refine List.ext_getElem (by simp) fun k _ hk => ?_
  rw [List.getElem_map, List.getElem_range, Bool.eq_iff_iff, List.contains_iff_mem,
    List.mem_findIdxs_iff_pos_getElem hk, id_eq]

theorem value?_of_mem_minterms {values : Int → Option Bool} {pins : Int → Bool}
    (h : t.Assigns values pins) {term : ProductTerm}
    (hterm : term ∈ minterms t.inputPins t.entries) :
    term.value? values = .ok (term.holds pins) := by
  apply ProductTerm.value?_eq_ok
  intro l hl
  apply h
  rw [← pins_of_mem_minterms hterm]
  exact List.mem_map_of_mem hl

/-- Terms that are true for the same values have one index, and no two terms have one. -/
theorem eq_of_holds (hlen : t.entries.length = TruthTable.combinations t.inputPins.length)
    {term term' : ProductTerm} (hterm : term ∈ minterms t.inputPins t.entries)
    (hterm' : term' ∈ minterms t.inputPins t.entries) {pins : Int → Bool}
    (h : term.holds pins = true) (h' : term'.holds pins = true) : term = term' := by
  have hnodup : ((minterms t.inputPins t.entries).map ProductTerm.index).Nodup := by
    rw [map_index_minterms hlen]
    exact List.nodup_findIdxs
  apply List.inj_on_of_nodup_map hnodup hterm hterm'
  rw [← (holds_iff_index_eq hterm pins).1 h, ← (holds_iff_index_eq hterm' pins).1 h']

/-! ## What makes a sum canonical -/

/-- The sum of a table, said without the way in which it is built. -/
structure Canonical (t : TruthTable) (s : SumOfProducts) : Prop where
  outputPin : s.outputPin = t.outputPin
  registered : s.registered = t.registered
  length_terms : s.terms.length = t.trueCount
  /-- Every term names the input pins in their order. -/
  pins : ∀ term ∈ s.terms, term.pins = t.inputPins
  /-- Every term is true for the values that make up its index. -/
  holds_iff : ∀ term ∈ s.terms, ∀ pins, term.holds pins = true ↔ t.index pins = term.index
  ascending : (s.terms.map ProductTerm.index).Pairwise (· < ·)
  /-- The sum and the number of inputs give the entries back. -/
  entries : s.entries t.inputPins.length = t.entries
  /-- Evaluated with values for the input pins, the sum has the value of the entry. -/
  value : ∀ values pins, t.Assigns values pins →
    ∃ entry, t.entries[t.index pins]? = some entry ∧ s.value? values = .ok entry
  /-- For a true entry exactly one term is true. -/
  one : ∀ values pins, t.Assigns values pins → t.entries[t.index pins]? = some true →
    ∃! term, term ∈ s.terms ∧ term.value? values = .ok true
  /-- For a false entry none is. -/
  none : ∀ values pins, t.Assigns values pins → t.entries[t.index pins]? = some false →
    ∀ term ∈ s.terms, term.value? values = .ok false

/-- The sum of a table is canonical. -/
theorem canonical_of_ofTable (h : ofTable t = .ok s) : Canonical t s := by
  have hentry := getElem?_index_of_ofTable h
  obtain ⟨-, hlen, rfl⟩ := ofTable_eq_ok_iff.1 h
  refine ⟨rfl, rfl, length_minterms _ _, fun _ => pins_of_mem_minterms,
    fun _ => holds_iff_index_eq, ?_, entries_eq hlen, ?_, ?_, ?_⟩
  · rw [map_index_minterms hlen]
    exact List.pairwise_findIdxs
  · intro values pins hvalues
    refine ⟨_, hentry pins, value?_eq_ok fun term hterm l hl => hvalues _ ?_⟩
    rw [← pins_of_mem_minterms hterm]
    exact List.mem_map_of_mem hl
  · intro values pins hvalues htrue
    rw [hentry pins, Option.some.injEq, holds, List.any_eq_true] at htrue
    obtain ⟨term, hterm, hholds⟩ := htrue
    refine ⟨term, ⟨hterm, ?_⟩, fun term' ⟨hterm', hvalue'⟩ => ?_⟩
    · rw [value?_of_mem_minterms hvalues hterm, hholds]
    · rw [value?_of_mem_minterms hvalues hterm', Except.ok.injEq] at hvalue'
      exact eq_of_holds hlen hterm' hterm hvalue' hholds
  · intro values pins hvalues hfalse term hterm
    rw [hentry pins, Option.some.injEq, holds, List.any_eq_false] at hfalse
    rw [value?_of_mem_minterms hvalues hterm, Bool.eq_false_iff.2 (hfalse term hterm)]

/-- A table that lists its first input again as the last one, so that only four of its entries can
ever be asked for. -/
def echoTable : TruthTable :=
  ⟨3, true, [1, 2, 1], [true, true, false, false, false, true, false, true]⟩

theorem canonical_echoTable : ∃ s, ofTable echoTable = .ok s ∧ Canonical echoTable s :=
  ⟨_, rfl, canonical_of_ofTable rfl⟩

end SumOfProducts

end FuseMap
