import FuseMap.Proofs.Minterm
import FuseMap.Proofs.Sentence
import Mathlib.Data.List.Perm.Subperm

/-! # What statements mean

A function statement gives its output the value of its formula, and a table the bit that it lists
for the values of its inputs, or its fill value (`Sentence.value?`). The entries that are computed
for a statement are these values, in the order of their indices.
-/

namespace FuseMap.Design

/-- The bits of a row of digits. -/
def rowBits (row : String) : List Bool := row.toList.map (· == '1')

/-- Rows in pairs of input bits and an output bit. -/
def pairs : List String → List (String × String)
  | input :: output :: rows => (input, output) :: pairs rows
  | _ => []

namespace Sentence

/-- The pins that a statement declares. -/
def declarations : Sentence → Names
  | .pins numbers names => (numbers.map fun n => (Text.digitsValue n.toList : Int)).zip names
  | _ => []

/-- The name of the output that a statement configures. -/
def output? : Sentence → Option String
  | .pins .. => none
  | .table _ output .. => some output
  | .function output .. => some output

/-- The value that a statement gives to its output when the names have the given values. -/
def value? (w : String → Bool) : Sentence → Option Bool
  | .pins .. => none
  | .table inputs _ modifiers rows =>
    match (Modifiers.ofList modifiers).form with
    | .counting => (rows.flatMap rowBits)[bitsValue (inputs.map w)]?
    | .listed fill =>
      (((pairs rows).find? fun row => rowBits row.1 == inputs.map w).map (·.2 == "1")).or fill
  | .function _ _ formula => some (formula.value w)

end Sentence

/-! ## Functions -/

namespace Expr

variable {w w' : String → Bool}

/-- The value depends on nothing but the names in the function. -/
theorem value_congr {e : Expr} (h : ∀ name ∈ e.names, w name = w' name) :
    e.value w = e.value w' := by
  induction e with
  | const b => rfl
  | pin name => exact h name (by simp [names])
  | not e ih => simp only [value, ih h]
  | and a b iha ihb | or a b iha ihb | xor a b iha ihb =>
    simp only [names, List.mem_append] at h
    simp only [value, iha fun name hn => h name (.inl hn), ihb fun name hn => h name (.inr hn)]

/-- The digits of an index, whatever stands before them, are the values of the inputs. -/
theorem inputValue_bitsValue {inputs : List String} {name : String} (h : name ∈ inputs) (q : Nat) :
    inputValue (q * TruthTable.combinations inputs.length + bitsValue (inputs.map w)) inputs name =
      w name := by
  induction inputs generalizing q with
  | nil => cases h
  | cons input inputs ih =>
    have hlt := bitsValue_lt (inputs.map w)
    rw [List.length_map] at hlt
    have hindex : q * TruthTable.combinations (input :: inputs).length +
        bitsValue ((input :: inputs).map w) =
          (2 * q + (w input).toNat) * TruthTable.combinations inputs.length +
            bitsValue (inputs.map w) := by
      rw [List.map_cons, bitsValue_cons, List.length_map, List.length_cons,
        TruthTable.combinations_succ]
      grind
    rw [hindex, inputValue]
    by_cases heq : input = name
    · subst heq
      rw [if_pos (beq_self_eq_true input), Nat.mul_comm,
        Nat.mul_add_div (TruthTable.combinations_pos _), Nat.div_eq_of_lt hlt]
      cases w input <;> simp
    · rw [if_neg (by simpa using heq)]
      exact ih ((List.mem_cons.1 h).resolve_left (Ne.symm heq)) _

/-- The entry of an assignment is the value under it. -/
theorem getElem?_tabulate (e : Expr) (w : String → Bool) :
    e.tabulate[bitsValue (e.inputs.map w)]? = some (e.value w) := by
  have hlt := bitsValue_lt (e.inputs.map w)
  rw [List.length_map] at hlt
  simp only [tabulate, List.getElem?_map, List.getElem?_range hlt, Option.map_some]
  refine congrArg some (value_congr fun name hname => ?_)
  have hinput : name ∈ e.inputs := List.mem_eraseDups.2 hname
  simpa using inputValue_bitsValue (w := w) hinput 0

end Expr

/-! ## Tables -/

/-- Bits of one length are told apart by their number. -/
theorem bitsValue_injective {xs ys : List Bool} (hlen : xs.length = ys.length)
    (h : bitsValue xs = bitsValue ys) : xs = ys := by
  induction xs generalizing ys with
  | nil => exact (List.length_eq_zero_iff.1 hlen.symm).symm
  | cons x xs ih =>
    obtain _ | ⟨y, ys⟩ := ys
    · cases hlen
    have hlen' : xs.length = ys.length := Nat.succ.inj hlen
    have hx := bitsValue_lt xs
    have hy := bitsValue_lt ys
    rw [bitsValue_cons, bitsValue_cons, hlen'] at h
    rw [hlen'] at hx
    cases x <;> cases y <;> simp only [Bool.toNat_true, Bool.toNat_false] at h
    · rw [ih hlen' (by omega)]
    · omega
    · omega
    · rw [ih hlen' (by omega)]

variable {inputs line : Nat} {known known' : List (Nat × Bool)} {entries : List Bool}

/-- A text is a row of the given number of bits. -/
structure IsBits (n : Nat) (text : String) : Prop where
  length_eq : text.length = n
  bit : ∀ c ∈ text.toList, c = '0' ∨ c = '1'

theorem length_rowBits (text : String) : (rowBits text).length = text.length := by
  rw [rowBits, List.length_map, String.length_toList]

theorem Word.bits_eq_ok_iff {w : Word} {bits : List Bool} :
    w.bits = .ok bits ↔ IsBits bits.length w.text ∧ bits = rowBits w.text := by
  rw [Word.bits]
  split
  · next h =>
    rw [Except.ok.injEq]
    constructor
    · rintro rfl
      exact ⟨⟨(length_rowBits _).symm, by simpa using h⟩, rfl⟩
    · rintro ⟨-, rfl⟩
      rfl
  · next h =>
    refine ⟨nofun, fun ⟨hbits, _⟩ => absurd ?_ h⟩
    simpa using hbits.bit

theorem Word.bits_ok {w : Word} {bits : List Bool} (h : w.bits = .ok bits) :
    bits = rowBits w.text :=
  (Word.bits_eq_ok_iff.1 h).2

theorem mapM_bits_eq_ok_iff {rows : List Word} {bits : List (List Bool)} :
    rows.mapM Word.bits = .ok bits ↔
      (∀ w ∈ rows, IsBits w.text.length w.text) ∧ bits = rows.map fun w => rowBits w.text := by
  rw [mapM_eq_ok_iff]
  constructor
  · intro h
    induction h with
    | nil => simp
    | cons hw _ ih =>
      obtain ⟨hrow, rfl⟩ := Word.bits_eq_ok_iff.1 hw
      rw [length_rowBits] at hrow
      exact ⟨List.forall_mem_cons.2 ⟨hrow, ih.1⟩, by rw [ih.2, List.map_cons]⟩
  · rintro ⟨hrows, rfl⟩
    rw [List.forall₂_map_right_iff, List.forall₂_same]
    exact fun w hw => Word.bits_eq_ok_iff.2 ⟨(length_rowBits w.text).symm ▸ hrows w hw, rfl⟩

/-- Which rows make a counted table, and of which entries. -/
theorem countedEntries_eq_ok_iff {rows : List Word} :
    countedEntries line inputs rows = .ok entries ↔
      (∀ w ∈ rows, IsBits w.text.length w.text) ∧
        entries.length = TruthTable.combinations inputs ∧
          entries = (rows.map (·.text)).flatMap rowBits := by
  have hbits : (rows.map fun w => rowBits w.text).flatten =
      (rows.map (·.text)).flatMap rowBits := by
    rw [List.flatMap_def, List.map_map]
    rfl
  simp only [countedEntries, throw_eq_error, error_bind, bind_eq_ok_iff, ite_error_eq_ok_iff,
    pure_eq_ok_iff, mapM_bits_eq_ok_iff, ne_eq, not_not]
  constructor
  · rintro ⟨_, ⟨hrows, rfl⟩, hlength, rfl⟩
    exact ⟨hrows, hlength, hbits⟩
  · rintro ⟨hrows, hlength, rfl⟩
    exact ⟨_, ⟨hrows, rfl⟩, hbits ▸ hlength, hbits⟩

theorem countedEntries_ok {rows : List Word} (h : countedEntries line inputs rows = .ok entries) :
    entries = (rows.map (·.text)).flatMap rowBits :=
  (countedEntries_eq_ok_iff.1 h).2.2

/-- The entries known from rows: one for the bits of each row. -/
structure Lists (inputs : Nat) (rows : List (String × String)) (known : List (Nat × Bool)) :
    Prop where
  lookup : ∀ bits : List Bool, bits.length = inputs → known.lookup (bitsValue bits) =
    (rows.find? fun row => rowBits row.1 == bits).map fun row => row.2 == "1"
  nodup : (known.map (·.1)).Nodup
  lt : ∀ k ∈ known.map (·.1), k < TruthTable.combinations inputs

theorem eq_one_of_rowBits {text : String} {bit : Bool} (h : rowBits text = [bit]) :
    (text == "1") = bit := by
  obtain ⟨c, hc, rfl⟩ := List.map_eq_singleton_iff.1 h
  rw [Bool.eq_iff_iff, beq_iff_eq, beq_iff_eq, ← String.toList_inj, hc]
  simp

theorem isSome_lookup_iff {k : Nat} : (known.lookup k).isSome ↔ k ∈ known.map (·.1) := by
  simp only [List.lookup_isSome_iff, beq_iff_eq, List.mem_map, eq_comm (a := k)]

/-- A row adds the entry for its bits, which must be new. -/
theorem addListed_eq_ok_iff {row : Word × Word} :
    addListed inputs known row = .ok known' ↔
      (IsBits inputs row.1.text ∧ IsBits 1 row.2.text) ∧
        bitsValue (rowBits row.1.text) ∉ known.map (·.1) ∧
          known' = (bitsValue (rowBits row.1.text), row.2.text == "1") :: known := by
  simp only [addListed, throw_eq_error, error_bind, bind_eq_ok_iff, ite_error_eq_ok_iff,
    Word.bits_eq_ok_iff]
  constructor
  · rintro ⟨bits, ⟨hrow, rfl⟩, value, ⟨hvalue, hbit⟩, hlen, hadd⟩
    split at hadd
    · simp only [ite_error_eq_ok_iff, pure_eq_ok_iff] at hadd
      obtain ⟨hnew, rfl⟩ := hadd
      rw [eq_one_of_rowBits hbit.symm]
      exact ⟨⟨of_not_not hlen ▸ hrow, hvalue⟩, mt isSome_lookup_iff.2 hnew, rfl⟩
    · cases hadd
  · rintro ⟨⟨hrow, hvalue⟩, hnew, rfl⟩
    have hlen : (rowBits row.1.text).length = inputs := (length_rowBits _).trans hrow.length_eq
    obtain ⟨bit, hbit⟩ := List.length_eq_one_iff.1 ((length_rowBits _).trans hvalue.length_eq)
    refine ⟨_, ⟨hlen ▸ hrow, rfl⟩, [bit], ⟨hvalue, hbit.symm⟩, not_not_intro hlen, ?_⟩
    rw [eq_one_of_rowBits hbit]
    exact ite_error_eq_ok_iff.2 ⟨mt isSome_lookup_iff.1 hnew, rfl⟩

/-- The step lemma: one more row is listed. -/
theorem Lists.add {rows : List (String × String)} {row : Word × Word} (h : Lists inputs rows known)
    (hadd : addListed inputs known row = .ok known') :
    Lists inputs (rows ++ [(row.1.text, row.2.text)]) known' := by
  obtain ⟨⟨hrow, -⟩, hnew, rfl⟩ := addListed_eq_ok_iff.1 hadd
  have hlen : (rowBits row.1.text).length = inputs := (length_rowBits _).trans hrow.length_eq
  refine ⟨fun bits hbits => ?_, List.nodup_cons.2 ⟨hnew, h.nodup⟩, ?_⟩
  · by_cases heq : rowBits row.1.text = bits
    · subst heq
      have hrows : rows.find? (fun row' => rowBits row'.1 == rowBits row.1.text) = none := by
        rw [← Option.map_eq_none_iff, ← h.lookup _ hlen, ← Option.not_isSome_iff_eq_none,
          isSome_lookup_iff]
        exact hnew
      rw [List.lookup_cons_self, List.find?_append, hrows, Option.none_or,
        List.find?_singleton, if_pos (beq_self_eq_true _), Option.map_some]
    · have hne : (bitsValue bits == bitsValue (rowBits row.1.text)) = false :=
        beq_false_of_ne fun hval => heq (bitsValue_injective (hlen.trans hbits.symm) hval.symm)
      rw [List.lookup_cons, hne, h.lookup bits hbits, List.find?_append, List.find?_singleton,
        if_neg (by simpa using heq), Option.or_none]
  · rw [List.map_cons, List.forall_mem_cons]
    exact ⟨hlen ▸ bitsValue_lt _, h.lt⟩

theorem Lists.foldlM {rows : List (String × String)} {more : List (Word × Word)}
    (h : Lists inputs rows known) (hadd : more.foldlM (addListed inputs) known = .ok known') :
    Lists inputs (rows ++ more.map fun row => (row.1.text, row.2.text)) known' := by
  induction more generalizing rows known with
  | nil =>
    cases hadd
    simpa using h
  | cons row more ih =>
    rw [List.foldlM_cons, bind_eq_ok_iff] at hadd
    obtain ⟨known₁, hrow, hmore⟩ := hadd
    simpa using ih (h.add hrow) hmore

theorem pairs_map_text (rows : List Word) :
    pairs (rows.map (·.text)) = (pairRows rows).map fun row => (row.1.text, row.2.text) := by
  fun_induction pairRows rows with
  | case1 input output rows ih => simp [pairs, ih]
  | case2 rows hrows =>
    match rows, hrows with
    | [], _ => rfl
    | [_], _ => rfl
    | input :: output :: rest, hrows => exact absurd rfl (hrows input output rest)

/-- Different numbers below a bound are all of them if there are as many. -/
theorem length_le_iff {m : Nat} {keys : List Nat} (hnodup : keys.Nodup) (hlt : ∀ k ∈ keys, k < m) :
    m ≤ keys.length ↔ ∀ k < m, k ∈ keys := by
  constructor
  · intro hlen k hk
    have hsub : keys.Subperm (List.range m) :=
      hnodup.subperm fun k hk => List.mem_range.2 (hlt k hk)
    have hperm := hsub.perm_of_length_le (by simpa using hlen)
    exact hperm.mem_iff.2 (List.mem_range.2 hk)
  · intro hall
    have hsub : (List.range m).Subperm keys :=
      List.nodup_range.subperm fun k hk => hall k (List.mem_range.1 hk)
    simpa using hsub.length_le

/-- As many entries as there are combinations of the inputs are all of them. -/
theorem Lists.isSome_lookup {rows : List (String × String)} (h : Lists inputs rows known)
    (hlen : TruthTable.combinations inputs ≤ known.length) {k : Nat}
    (hk : k < TruthTable.combinations inputs) : (known.lookup k).isSome :=
  isSome_lookup_iff.2 ((length_le_iff h.nodup h.lt).1 (by rwa [List.length_map]) k hk)

/-- The entries of a listed table come from those that the rows add. -/
theorem listedEntries_eq_ok_iff {fill : Option Bool} {rows : List Word} :
    listedEntries line inputs fill rows = .ok entries ↔
      rows.length % 2 = 0 ∧ isSize (TruthTable.combinations inputs) ∧
        ∃ known, (pairRows rows).foldlM (addListed inputs) [] = .ok known ∧
          (fill.isSome ∨ TruthTable.combinations inputs ≤ known.length) ∧
          entries = (List.range (TruthTable.combinations inputs)).map fun index =>
            (known.lookup index).getD (fill.getD false) := by
  simp only [listedEntries, throw_eq_error, error_bind, bind_eq_ok_iff, ite_error_eq_ok_iff,
    pure_eq_ok_iff, ne_eq, not_not, not_and, eq_comm (b := entries)]
  cases fill <;> simp

theorem length_listedEntries {fill : Option Bool} {rows : List Word}
    (h : listedEntries line inputs fill rows = .ok entries) :
    entries.length = TruthTable.combinations inputs := by
  obtain ⟨-, -, known, -, -, rfl⟩ := listedEntries_eq_ok_iff.1 h
  rw [List.length_map, List.length_range]

/-- An entry is that of the row that lists it, or the fill value. -/
theorem listedEntries_ok {fill : Option Bool} {rows : List Word}
    (h : listedEntries line inputs fill rows = .ok entries) {bits : List Bool}
    (hbits : bits.length = inputs) :
    entries[bitsValue bits]? = (((pairs (rows.map (·.text))).find? fun row =>
      rowBits row.1 == bits).map fun row => row.2 == "1").or fill := by
  obtain ⟨-, -, known, hknown, hfill, rfl⟩ := listedEntries_eq_ok_iff.1 h
  have hnone : Lists inputs [] [] := ⟨fun _ _ => rfl, List.nodup_nil, by simp⟩
  have hlists := hnone.foldlM hknown
  rw [List.nil_append, ← pairs_map_text] at hlists
  have hlt := hbits ▸ bitsValue_lt bits
  rw [List.getElem?_map, List.getElem?_range hlt, ← hlists.lookup bits hbits, Option.map_some]
  cases fill with
  | some b => cases known.lookup (bitsValue bits) <;> rfl
  | none =>
    have hall : TruthTable.combinations inputs ≤ known.length := by simpa using hfill
    obtain ⟨bit, hbit⟩ := Option.isSome_iff_exists.1 (hlists.isSome_lookup hall hlt)
    simp [hbit]

end FuseMap.Design
