import FuseMap.Proofs.Totality

/-! # The notations of a table

The entries of a table can be written down in three ways: by all combinations of the inputs with
their output bits, by some of the combinations and a fill value, and by the output bits in counting
order. The first two are read alike, and `exists_listedEntries_iff` says for which rows. All three
give the same entries, whatever the order of the combinations and however the bits are divided into
rows (`notationsAgree`).
-/

namespace FuseMap.Design

variable {line n : Nat} {fill : Option Bool} {rows : List Word} {entries v : List Bool}
  {known known' : List (Nat × Bool)}

/-! ## Rows of digits -/

/-- The row of digits for the given bits. -/
def digits (bits : List Bool) : String :=
  String.ofList (bits.map fun bit => if bit then '1' else '0')

/-- Bits are read back from the row of digits that is written for them. -/
theorem rowBits_digits (bits : List Bool) : rowBits (digits bits) = bits := by
  rw [rowBits, digits, String.toList_ofList, List.map_map]
  conv_rhs => rw [← List.map_id bits]
  exact List.map_congr_left fun bit _ => by cases bit <;> rfl

theorem isBits_digits (bits : List Bool) : IsBits bits.length (digits bits) := by
  refine ⟨by rw [← length_rowBits, rowBits_digits], fun c hc => ?_⟩
  rw [digits, String.toList_ofList] at hc
  obtain ⟨bit, -, rfl⟩ := List.mem_map.1 hc
  cases bit <;> simp

theorem IsBits.digits_rowBits {text : String} (h : IsBits n text) :
    digits (rowBits text) = text := by
  rw [← String.toList_inj, digits, String.toList_ofList, rowBits, List.map_map]
  conv_rhs => rw [← List.map_id text.toList]
  refine List.map_congr_left fun c hc => ?_
  obtain rfl | rfl := h.bit c hc <;> rfl

theorem IsBits.length_rowBits {text : String} (h : IsBits n text) : (rowBits text).length = n :=
  (Design.length_rowBits text).trans h.length_eq

/-- The number in a row of bits tells the row. -/
theorem IsBits.eq_of_value_eq {text text' : String} (h : IsBits n text) (h' : IsBits n text')
    (heq : bitsValue (rowBits text) = bitsValue (rowBits text')) : text = text' := by
  have hlength := h.length_rowBits.trans h'.length_rowBits.symm
  rw [← h.digits_rowBits, ← h'.digits_rowBits, bitsValue_injective hlength heq]

theorem exists_bitsValue_eq {k : Nat} (hk : k < TruthTable.combinations n) :
    ∃ bits : List Bool, bits.length = n ∧ bitsValue bits = k := by
  induction n generalizing k with
  | zero => exact ⟨[], rfl, (Nat.lt_one_iff.1 hk).symm⟩
  | succ n ih =>
    rw [TruthTable.combinations_succ] at hk
    by_cases hlt : k < TruthTable.combinations n
    · obtain ⟨bits, hlength, rfl⟩ := ih hlt
      exact ⟨false :: bits, by simp [hlength], by simp [bitsValue_cons]⟩
    · obtain ⟨bits, hlength, hvalue⟩ := ih (k := k - TruthTable.combinations n) (by omega)
      refine ⟨true :: bits, by simp [hlength], ?_⟩
      rw [bitsValue_cons, hlength, hvalue, Bool.toNat_true]
      omega

/-! ## Listed tables -/

/-- The rows of a listed table with `n` inputs. -/
structure Listed (n : Nat) (fill : Option Bool) (rows : List String) : Prop where
  paired : rows.length % 2 = 0
  combination : ∀ row ∈ pairs rows, IsBits n row.1
  bit : ∀ row ∈ pairs rows, IsBits 1 row.2
  distinct : ((pairs rows).map (·.1)).Nodup
  complete : fill.isSome ∨ ∀ text, IsBits n text → text ∈ (pairs rows).map (·.1)

/-- The entries of a listed table: those that are listed, and the fill value for the others. -/
structure Fills (n : Nat) (fill : Option Bool) (rows : List String) (entries : List Bool) :
    Prop where
  length_eq : entries.length = TruthTable.combinations n
  listed : ∀ row ∈ pairs rows, entries[bitsValue (rowBits row.1)]? = some (row.2 == "1")
  filled : ∀ k < TruthTable.combinations n,
    (∀ row ∈ pairs rows, bitsValue (rowBits row.1) ≠ k) → entries[k]? = fill

/-- The index and the entry that a pair of rows gives. -/
def listedEntry (row : Word × Word) : Nat × Bool :=
  (bitsValue (rowBits row.1.text), row.2.text == "1")

/-- Rows can be added if they are pairs of bits and no index comes twice. -/
theorem foldlM_addListed_eq_ok_iff {more : List (Word × Word)} (hnodup : (known.map (·.1)).Nodup) :
    more.foldlM (addListed n) known = .ok known' ↔
      (∀ row ∈ more, IsBits n row.1.text ∧ IsBits 1 row.2.text) ∧
        (known'.map (·.1)).Nodup ∧ known' = (more.map listedEntry).reverse ++ known := by
  induction more generalizing known with
  | nil =>
    simp only [List.foldlM_nil, pure_eq_ok_iff, List.map_nil, List.reverse_nil, List.nil_append]
    exact ⟨fun h => ⟨by simp, h ▸ hnodup, h.symm⟩, fun h => h.2.2.symm⟩
  | cons row more ih =>
    simp only [List.foldlM_cons, bind_eq_ok_iff, addListed_eq_ok_iff, List.forall_mem_cons,
      List.map_cons, List.reverse_cons, List.append_assoc, List.singleton_append]
    constructor
    · rintro ⟨_, ⟨hrow, hnew, rfl⟩, hmore⟩
      have hfirst : ((listedEntry row :: known).map (·.1)).Nodup :=
        List.nodup_cons.2 ⟨hnew, hnodup⟩
      obtain ⟨hrows, hnodup', rfl⟩ := (ih hfirst).1 hmore
      exact ⟨⟨hrow, hrows⟩, hnodup', rfl⟩
    · rintro ⟨⟨hrow, hrows⟩, hnodup', rfl⟩
      -- the indices up to this row are a part of all of them
      have hfirst : ((listedEntry row :: known).map (·.1)).Nodup :=
        hnodup'.sublist ((List.sublist_append_right _ _).map _)
      exact ⟨_, ⟨hrow, (List.nodup_cons.1 hfirst).1, rfl⟩, (ih hfirst).2 ⟨hrows, hnodup', rfl⟩⟩

section Combinations

variable {texts : List String}

/-- Rows of as many bits are different if their numbers are. -/
theorem nodup_map_value_iff (htexts : ∀ text ∈ texts, IsBits n text) :
    (texts.map fun text => bitsValue (rowBits text)).Nodup ↔ texts.Nodup := by
  refine ⟨List.Nodup.of_map _, fun hnodup => hnodup.map_on fun text htext text' htext' heq => ?_⟩
  exact (htexts text htext).eq_of_value_eq (htexts text' htext') heq

/-- Different combinations are all of them if there are as many. -/
theorem combinations_le_length_iff (htexts : ∀ text ∈ texts, IsBits n text)
    (hnodup : texts.Nodup) :
    TruthTable.combinations n ≤ texts.length ↔ ∀ text, IsBits n text → text ∈ texts := by
  have hlt : ∀ k ∈ texts.map fun text => bitsValue (rowBits text),
      k < TruthTable.combinations n := by
    rw [List.forall_mem_map]
    exact fun text htext => (htexts text htext).length_rowBits ▸ bitsValue_lt _
  have hall := length_le_iff ((nodup_map_value_iff htexts).2 hnodup) hlt
  rw [List.length_map] at hall
  rw [hall]
  constructor
  · intro hmem text htext
    have hk : bitsValue (rowBits text) < TruthTable.combinations n :=
      htext.length_rowBits ▸ bitsValue_lt _
    obtain ⟨text', htext', heq⟩ := List.mem_map.1 (hmem _ hk)
    rwa [htext.eq_of_value_eq (htexts text' htext') heq.symm]
  · intro hmem k hk
    obtain ⟨bits, rfl, rfl⟩ := exists_bitsValue_eq hk
    exact List.mem_map.2 ⟨digits bits, hmem _ (isBits_digits bits), by rw [rowBits_digits]⟩

end Combinations

theorem foldlM_pairRows_eq_ok_iff :
    (pairRows rows).foldlM (addListed n) [] = .ok known ↔
      (∀ row ∈ pairs (rows.map (·.text)), IsBits n row.1 ∧ IsBits 1 row.2) ∧
        ((pairs (rows.map (·.text))).map (·.1)).Nodup ∧
          known = ((pairRows rows).map listedEntry).reverse := by
  have hkeys : ((pairRows rows).map listedEntry).map (·.1) =
      ((pairs (rows.map (·.text))).map (·.1)).map fun text => bitsValue (rowBits text) := by
    simp [pairs_map_text, listedEntry]
  rw [foldlM_addListed_eq_ok_iff (by simp), List.append_nil]
  have hrows : (∀ row ∈ pairRows rows, IsBits n row.1.text ∧ IsBits 1 row.2.text) ↔
      ∀ row ∈ pairs (rows.map (·.text)), IsBits n row.1 ∧ IsBits 1 row.2 := by
    rw [pairs_map_text, List.forall_mem_map]
  rw [hrows]
  refine and_congr_right fun hbits => and_congr_left fun hknown => ?_
  have htexts : ∀ text ∈ (pairs (rows.map (·.text))).map (·.1), IsBits n text :=
    List.forall_mem_map.2 fun row hrow => (hbits row hrow).1
  rw [hknown, List.map_reverse, List.nodup_reverse, hkeys, nodup_map_value_iff htexts]

/-- Which rows make a listed table. -/
theorem exists_listedEntries_iff :
    (∃ entries, listedEntries line n fill rows = .ok entries) ↔
      n < 63 ∧ Listed n fill (rows.map (·.text)) := by
  have hlength : ((pairRows rows).map listedEntry).reverse.length =
      ((pairs (rows.map (·.text))).map (·.1)).length := by
    simp [pairs_map_text]
  have hpaired : rows.length % 2 = 0 ↔ (rows.map (·.text)).length % 2 = 0 := by
    rw [List.length_map]
  simp only [listedEntries_eq_ok_iff, foldlM_pairRows_eq_ok_iff, hpaired]
  constructor
  · rintro ⟨_, heven, hsize, _, ⟨hbits, hdistinct, rfl⟩, hfill, -⟩
    have hcombination := fun row hrow => (hbits row hrow).1
    rw [hlength, combinations_le_length_iff (List.forall_mem_map.2 hcombination) hdistinct] at hfill
    exact ⟨isSize_combinations_iff.1 hsize, heven, hcombination,
      fun row hrow => (hbits row hrow).2, hdistinct, hfill⟩
  · rintro ⟨hn, h⟩
    have hsize := isSize_combinations_iff.2 hn
    have hfill := h.complete
    rw [← combinations_le_length_iff (List.forall_mem_map.2 h.combination) h.distinct,
      ← hlength] at hfill
    exact ⟨_, h.paired, hsize, _,
      ⟨fun row hrow => ⟨h.combination row hrow, h.bit row hrow⟩, h.distinct, rfl⟩, hfill, rfl⟩

/-- The row that is found by its bits. -/
theorem Listed.find?_eq {texts : List String} (h : Listed n fill texts) {row : String × String}
    (hrow : row ∈ pairs texts) :
    (pairs texts).find? (fun row' => rowBits row'.1 == rowBits row.1) = some row := by
  cases hfind : (pairs texts).find? fun row' => rowBits row'.1 == rowBits row.1 with
  | none => exact absurd (beq_self_eq_true _) (List.find?_eq_none.1 hfind row hrow)
  | some row' =>
    have hmem := List.mem_of_find?_eq_some hfind
    have hbits : rowBits row'.1 = rowBits row.1 := by simpa using List.find?_some hfind
    have htext : row'.1 = row.1 :=
      (h.combination row' hmem).eq_of_value_eq (h.combination row hrow) (congrArg bitsValue hbits)
    rw [List.inj_on_of_nodup_map h.distinct hmem hrow htext]

/-- The entries are those of the rows, and the fill value wherever there is none. -/
theorem fills_of_listedEntries (h : listedEntries line n fill rows = .ok entries) :
    Fills n fill (rows.map (·.text)) entries := by
  obtain ⟨-, hlisted⟩ := exists_listedEntries_iff.1 ⟨entries, h⟩
  refine ⟨length_listedEntries h, fun row hrow => ?_, fun k hk hnone => ?_⟩
  · rw [listedEntries_ok h (hlisted.combination row hrow).length_rowBits, hlisted.find?_eq hrow,
      Option.map_some, Option.some_or]
  · obtain ⟨bits, hbits, rfl⟩ := exists_bitsValue_eq hk
    rw [listedEntries_ok h hbits, List.find?_eq_none.2, Option.map_none, Option.none_or]
    intro row hrow heq
    exact hnone row hrow (congrArg bitsValue (by simpa using heq))

/-! ## Listings of given entries -/

section Listings

variable {listing : List (List Bool × Bool)}

/-- Combinations with their entries in `v`, in any order and none of them twice. -/
structure Excerpt (n : Nat) (v : List Bool) (listing : List (List Bool × Bool)) : Prop where
  distinct : (listing.map (·.1)).Nodup
  length_eq : ∀ row ∈ listing, row.1.length = n
  entry : ∀ row ∈ listing, v[bitsValue row.1]? = some row.2

/-- The rows of digits that a listing is written in. -/
def listingRows (listing : List (List Bool × Bool)) : List String :=
  listing.flatMap fun row => [digits row.1, digits [row.2]]

theorem pairs_listingRows (listing : List (List Bool × Bool)) :
    pairs (listingRows listing) = listing.map fun row => (digits row.1, digits [row.2]) := by
  induction listing with
  | nil => rfl
  | cons row listing ih => simpa [listingRows, pairs] using ih

theorem length_listingRows (listing : List (List Bool × Bool)) :
    (listingRows listing).length = 2 * listing.length := by
  induction listing with
  | nil => rfl
  | cons row listing ih =>
    rw [listingRows, List.flatMap_cons, List.length_append, ← listingRows, ih, List.length_cons,
      List.length_cons, List.length_cons, List.length_nil]
    omega

theorem digits_injective : Function.Injective digits :=
  Function.LeftInverse.injective rowBits_digits

/-- An excerpt that leaves out only fill values makes a listed table. -/
theorem Excerpt.listed (h : Excerpt n v listing) (hv : v.length = TruthTable.combinations n)
    (hrest : ∀ bits : List Bool, bits.length = n →
      bits ∈ listing.map (·.1) ∨ v[bitsValue bits]? = fill) :
    Listed n fill (listingRows listing) := by
  have hfirst : (listing.map fun row => (digits row.1, digits [row.2])).map (·.1) =
      (listing.map (·.1)).map digits := by
    rw [List.map_map, List.map_map]
    rfl
  refine ⟨by rw [length_listingRows, Nat.mul_mod_right], ?_, ?_, ?_, ?_⟩ <;>
    rw [pairs_listingRows]
  · exact List.forall_mem_map.2 fun row hrow => h.length_eq row hrow ▸ isBits_digits row.1
  · exact List.forall_mem_map.2 fun row _ => isBits_digits [row.2]
  · rw [hfirst]
    exact h.distinct.map digits_injective
  · cases fill with
    | some f => exact .inl rfl
    | none =>
      refine .inr fun text htext => ?_
      rw [hfirst, ← htext.digits_rowBits]
      refine List.mem_map_of_mem ((hrest _ htext.length_rowBits).resolve_right fun hnone => ?_)
      have hlt := htext.length_rowBits ▸ bitsValue_lt (rowBits text)
      exact absurd (List.getElem?_eq_none_iff.1 hnone) (by omega)

theorem Fills.entry_of_mem (h : Fills n fill (listingRows listing) entries)
    {row : List Bool × Bool} (hrow : row ∈ listing) : entries[bitsValue row.1]? = some row.2 := by
  have hpair : (digits row.1, digits [row.2]) ∈ pairs (listingRows listing) := by
    rw [pairs_listingRows]
    exact List.mem_map_of_mem hrow
  have hentry := h.listed _ hpair
  rwa [rowBits_digits, eq_one_of_rowBits (rowBits_digits [row.2])] at hentry

/-- A combination that is not listed has the fill value. -/
theorem Fills.entry_of_notMem (h : Fills n fill (listingRows listing) entries)
    (hexcerpt : Excerpt n v listing) {bits : List Bool} (hbits : bits.length = n)
    (hnew : bits ∉ listing.map (·.1)) : entries[bitsValue bits]? = fill := by
  refine h.filled _ (hbits ▸ bitsValue_lt bits) ?_
  rw [pairs_listingRows]
  refine List.forall_mem_map.2 fun row hrow heq => hnew ?_
  rw [rowBits_digits] at heq
  have hlength := (hexcerpt.length_eq row hrow).trans hbits.symm
  exact List.mem_map.2 ⟨row, hrow, bitsValue_injective hlength heq⟩

/-- An excerpt that leaves out only fill values is read as the entries that it is from. -/
theorem Excerpt.listedEntries_eq (h : Excerpt n v listing) (hn : n < 63)
    (hv : v.length = TruthTable.combinations n)
    (hrest : ∀ bits : List Bool, bits.length = n →
      bits ∈ listing.map (·.1) ∨ v[bitsValue bits]? = fill)
    (hrows : rows.map (·.text) = listingRows listing) :
    listedEntries line n fill rows = .ok v := by
  obtain ⟨entries, hentries⟩ := exists_listedEntries_iff.2 ⟨hn, hrows ▸ h.listed hv hrest⟩
  have hfills := fills_of_listedEntries hentries
  rw [hrows] at hfills
  rw [hentries]
  refine congrArg Except.ok (List.ext_getElem? fun k => ?_)
  -- an index is the number of one combination, which is listed or has the fill value in both
  by_cases hk : k < TruthTable.combinations n
  · obtain ⟨bits, hbits, rfl⟩ := exists_bitsValue_eq hk
    by_cases hmem : bits ∈ listing.map (·.1)
    · obtain ⟨row, hrow, rfl⟩ := List.mem_map.1 hmem
      rw [hfills.entry_of_mem hrow, h.entry row hrow]
    · rw [hfills.entry_of_notMem h hbits hmem, (hrest bits hbits).resolve_left hmem]
  · have hlength := hfills.length_eq
    rw [List.getElem?_eq_none (by omega), List.getElem?_eq_none (by omega)]

end Listings

/-! ## The three notations -/

/-- The bits may be divided into rows in any way. -/
theorem countedEntries_flatten {parts : List (List Bool)}
    (hv : parts.flatten.length = TruthTable.combinations n)
    (hrows : rows.map (·.text) = parts.map digits) :
    countedEntries line n rows = .ok parts.flatten := by
  rw [countedEntries_eq_ok_iff, hrows]
  refine ⟨fun w hw => ?_, hv, ?_⟩
  · obtain ⟨bits, -, hbits⟩ := List.mem_map.1 (hrows ▸ List.mem_map_of_mem hw)
    rw [← hbits, (isBits_digits bits).length_eq]
    exact isBits_digits bits
  · rw [List.flatMap_def, List.map_map]
    conv_lhs => rw [← List.map_id parts]
    exact congrArg List.flatten (List.map_congr_left fun bits _ => (rowBits_digits bits).symm)

theorem length_flatMap_rowBits (rows : List Word) :
    ((rows.map (·.text)).flatMap rowBits).length = (rows.flatMap (·.text.toList)).length := by
  rw [List.flatMap_map, ← List.length_map (· == '1'), List.map_flatMap]
  rfl

/-- What the notations of a table with `n` inputs have to do with each other. -/
structure NotationsAgree (line n : Nat) : Prop where
  /-- A listed table has entries exactly if their number is a size and the rows list them. With 63
  inputs it is none (`isSize`). That a list of so many entries may not fit into memory is left out:
  the greatest length of a list is less than the greatest size. -/
  accepts : ∀ (fill : Option Bool) (rows : List Word),
    (∃ entries, listedEntries line n fill rows = .ok entries) ↔
      n < 63 ∧ Listed n fill (rows.map (·.text))
  /-- The entries are the listed bits and otherwise the fill value. -/
  fills : ∀ (fill : Option Bool) (rows : List Word) (entries : List Bool),
    listedEntries line n fill rows = .ok entries → Fills n fill (rows.map (·.text)) entries
  /-- All combinations with their entries, in any order. -/
  listing : n < 63 → ∀ v : List Bool, v.length = TruthTable.combinations n →
    ∀ (listing : List (List Bool × Bool)) (fill : Option Bool) (rows : List Word),
      Excerpt n v listing → (∀ bits : List Bool, bits.length = n → bits ∈ listing.map (·.1)) →
      rows.map (·.text) = listingRows listing → listedEntries line n fill rows = .ok v
  /-- The combinations whose entries differ from the fill value, and any others, in any order. -/
  filling : n < 63 → ∀ v : List Bool, v.length = TruthTable.combinations n →
    ∀ (listing : List (List Bool × Bool)) (f : Bool) (rows : List Word),
      Excerpt n v listing → (∀ bits : List Bool, bits.length = n → v[bitsValue bits]? = some !f →
        bits ∈ listing.map (·.1)) →
      rows.map (·.text) = listingRows listing → listedEntries line n (some f) rows = .ok v
  /-- The entries in counting order, divided into rows in any way. -/
  counting : ∀ v : List Bool, v.length = TruthTable.combinations n →
    ∀ (parts : List (List Bool)) (rows : List Word), parts.flatten = v →
      rows.map (·.text) = parts.map digits → countedEntries line n rows = .ok v
  /-- Any other number of digits is refused. -/
  miscounted : ∀ rows : List Word,
    (rows.flatMap (·.text.toList)).length ≠ TruthTable.combinations n →
      ∃ e, countedEntries line n rows = .error e

/-- All notations of a table give the same entries, and a notation that does not give as many
entries as there are combinations is refused. -/
theorem notationsAgree (line n : Nat) : NotationsAgree line n where
  accepts _ _ := exists_listedEntries_iff
  fills _ _ _ := fills_of_listedEntries
  listing hn _ hv _ _ _ hexcerpt hall hrows :=
    hexcerpt.listedEntries_eq hn hv (fun bits hbits => .inl (hall bits hbits)) hrows
  filling hn v hv listing f rows hexcerpt hdiffer hrows := by
    refine hexcerpt.listedEntries_eq hn hv (fun bits hbits => ?_) hrows
    obtain ⟨b, hb⟩ : ∃ b, v[bitsValue bits]? = some b :=
      ⟨_, List.getElem?_eq_getElem (hv ▸ hbits ▸ bitsValue_lt bits)⟩
    by_cases hbf : b = f
    · exact .inr (hbf ▸ hb)
    · exact .inl (hdiffer bits hbits (Bool.eq_not.2 hbf ▸ hb))
  counting v hv parts rows hparts hrows := hparts ▸ countedEntries_flatten (hparts ▸ hv) hrows
  miscounted rows hother := by
    cases h : countedEntries line n rows with
    | error e => exact ⟨e, rfl⟩
    | ok entries =>
      obtain ⟨-, hlength, rfl⟩ := countedEntries_eq_ok_iff.1 h
      exact absurd ((length_flatMap_rowBits rows).symm.trans hlength) hother

/-- The table of an exclusive or. -/
def eitherEntries : List Bool := [false, true, true, false]

/-- All of its combinations but one. -/
def eitherListing : List (List Bool × Bool) :=
  [([true, false], true), ([false, false], false), ([false, true], true)]

theorem notationsAgree_either :
    listedEntries 1 2 none [⟨"11", 1⟩, ⟨"0", 1⟩, ⟨"10", 1⟩, ⟨"1", 1⟩, ⟨"00", 2⟩, ⟨"0", 2⟩,
      ⟨"01", 2⟩, ⟨"1", 2⟩] = .ok eitherEntries ∧
    listedEntries 1 2 (some false) [⟨"10", 1⟩, ⟨"1", 1⟩, ⟨"00", 2⟩, ⟨"0", 2⟩, ⟨"01", 2⟩,
      ⟨"1", 2⟩] = .ok eitherEntries ∧
    countedEntries 1 2 [⟨"011", 1⟩, ⟨"0", 2⟩] = .ok eitherEntries := by
  have hall : ∀ bits : List Bool, bits.length = 2 →
      bits ∈ [true, true] :: eitherListing.map (·.1)
    | [a, b], _ => by cases a <;> cases b <;> decide
  refine ⟨?_, ?_, ?_⟩
  · exact (notationsAgree 1 2).listing (by decide) _ rfl (([true, true], false) :: eitherListing)
      _ _ ⟨by decide, by decide, by decide⟩ hall rfl
  · refine (notationsAgree 1 2).filling (by decide) _ rfl eitherListing _ _
      ⟨by decide, by decide, by decide⟩ (fun bits hbits hentry => ?_) rfl
    refine (List.mem_cons.1 (hall bits hbits)).resolve_left ?_
    rintro rfl
    cases hentry
  · exact (notationsAgree 1 2).counting _ rfl [[false, true, true], [false]] _ rfl rfl

/-- With 63 inputs there are too many entries, whatever the rows. -/
theorem listed_without_entries : 1 ≤ 63 ∧
    ¬ ((∃ entries, listedEntries 1 63 (some false) [] = .ok entries) ↔
      Listed 63 (some false) []) := by
  refine ⟨by decide, fun h => ?_⟩
  have hlisted : Listed 63 (some false) [] :=
    ⟨rfl, by simp [pairs], by simp [pairs], by simp [pairs], .inl rfl⟩
  obtain ⟨hlt, -⟩ := exists_listedEntries_iff.1 (h.2 hlisted)
  exact absurd hlt (by decide)

end FuseMap.Design
