import FuseMap.Design.Lexer
import FuseMap.Proofs.Grammar
import FuseMap.Proofs.Numeral

/-! # From characters to tokens

`Written` says which characters write which tokens: white space and comments may stand anywhere
between tokens, and a number or a word goes on as long as it can. The tokens that are found are
written (`written_of_lex`), and those that are written are found (`lex_of_written`).
-/

namespace FuseMap.Design

/-! ## Written tokens -/

/-- Whether a text is a letter with letters, digits and underscores after it. -/
def isName (text : String) : Bool :=
  match text.toList with
  | [] => false
  | c :: cs => c.isAlpha && cs.all isNameChar

/-- A name is a letter and then letters, digits and underscores. -/
theorem isName_iff {text : String} : isName text = true ↔
    ∃ c cs, text.toList = c :: cs ∧ c.isAlpha = true ∧ ∀ x ∈ cs, isNameChar x = true := by
  unfold isName
  split
  · next h => simp [h]
  · next c cs h => simp [h]

/-- The characters are one piece of a text, a token or nothing that counts, if `next` follows. -/
inductive IsPiece (next : Option Char) : List Char → Option Token → Prop
  | space {c : Char} : isSpace c = true → IsPiece next [c] none
  | lineComment {cs : List Char} :
    '\n' ∉ cs → (∀ c ∈ next, c = '\n') → IsPiece next ('/' :: '/' :: cs) none
  | blockComment {cs : List Char} :
    ¬ ['*', '/'] <:+: cs ++ ['*'] → IsPiece next ('/' :: '*' :: (cs ++ ['*', '/'])) none
  | arrow : IsPiece next ['-', '>'] (some .arrow)
  | number {d : Char} {ds : List Char} :
    (∀ c ∈ d :: ds, c.isDigit = true) → (d ≠ '0' ∨ ∀ c ∈ d :: ds, c = '0' ∨ c = '1') →
    (∀ c ∈ next, c.isDigit = false) →
    IsPiece next (d :: ds) (some (.number (String.ofList (d :: ds))))
  | word {c : Char} {cs : List Char} :
    c.isAlpha = true → (∀ c ∈ cs, isNameChar c = true) → (∀ c ∈ next, isNameChar c = false) →
    IsPiece next (c :: cs) (some (wordToken (String.ofList (c :: cs))))
  | symbol {s : Symbol} : IsPiece next [s.char] (some (.symbol s))

/-- The characters write tokens. -/
inductive Written : List Char → List Token → Prop
  | nil : Written [] []
  | cons {front cs : List Char} {t : Option Token} {ts : List Token} :
    IsPiece cs.head? front t → Written cs ts → Written (front ++ cs) (t.toList ++ ts)

/-! ## Block comments -/

/-- A block comment ends at the first end mark, which does not overlap its start. -/
theorem blockLength?_eq_some_iff {l : List Char} {n : Nat} :
    blockLength? l = some n ↔ ∃ cs tail, l = cs ++ '*' :: '/' :: tail ∧ n = cs.length + 2 ∧
      ¬ ['*', '/'] <:+: cs ++ ['*'] := by
  fun_induction blockLength? l generalizing n with
  | case1 => simp
  | case2 tail =>
    constructor
    · rintro h
      cases h
      exact ⟨[], tail, rfl, rfl, by decide⟩
    · rintro ⟨cs, tail', hl, rfl, hnot⟩
      match cs with
      | [] => rfl
      | [c] => cases hl
      | c :: c' :: cs =>
        cases hl
        exact absurd ⟨[], cs ++ ['*'], rfl⟩ hnot
  | case3 c rest hne ih =>
    simp only [Option.map_eq_some_iff, ih]
    constructor
    · rintro ⟨_, ⟨cs, tail, rfl, rfl, hnot⟩, rfl⟩
      refine ⟨c :: cs, tail, rfl, by simp, ?_⟩
      rw [List.cons_append, List.infix_cons_iff]
      rintro (hfront | hlater)
      · obtain ⟨t, ht⟩ := hfront
        cases cs with
        | nil => cases ht
        | cons c' cs =>
          cases ht
          exact absurd rfl (hne _ rfl)
      · exact hnot hlater
    · rintro ⟨cs, tail, hl, rfl, hnot⟩
      match cs with
      | [] =>
        cases hl
        exact absurd rfl (hne _ rfl)
      | c' :: cs =>
        cases hl
        refine ⟨cs.length + 2, ⟨cs, tail, rfl, rfl, fun hlater => hnot ?_⟩, by simp⟩
        exact List.infix_cons hlater

/-! ## Pieces that are found -/

theorem head?_dropWhile {p : Char → Bool} {cs : List Char} :
    ∀ c ∈ (cs.dropWhile p).head?, p c = false := by
  intro c hc
  have := List.head?_dropWhile_not p cs
  rw [hc] at this
  exact this

variable {c : Char} {rest cs : List Char}

theorem isDigit_eq_false_of_isAlpha (h : c.isAlpha = true) : c.isDigit = false := by
  change (decide (c.val ≥ 65 ∧ c.val ≤ 90) || (decide (c.val ≥ 97) && decide (c.val ≤ 122))) = true
    at h
  change (decide (c.val ≥ 48) && decide (c.val ≤ 57)) = false
  simp only [Bool.or_eq_true, Bool.and_eq_true, decide_eq_true_eq, ge_iff_le,
    UInt32.le_iff_toNat_le, Bool.and_eq_false_iff, decide_eq_false_iff_not] at h ⊢
  simp at h ⊢
  omega

theorem eq_of_isSpace (h : isSpace c = true) : c = ' ' ∨ c = '\t' ∨ c = '\r' ∨ c = '\n' := by
  simpa [isSpace, or_assoc] using h

theorem isSpace_eq_false_of_isAlphanum (h : c.isAlphanum = true) : isSpace c = false := by
  rw [← Bool.not_eq_true]
  intro hspace
  rcases eq_of_isSpace hspace with rfl | rfl | rfl | rfl <;> cases h

theorem isAlphanum_of_isAlpha (h : c.isAlpha = true) : c.isAlphanum = true := by
  change (c.isAlpha || c.isDigit) = true
  rw [h, Bool.true_or]

theorem isAlphanum_of_isDigit (h : c.isDigit = true) : c.isAlphanum = true := by
  change (c.isAlpha || c.isDigit) = true
  rw [h, Bool.or_true]

theorem piece_of_ne_slash (h : c ≠ '/') : piece c rest = plainPiece c rest := by
  unfold piece
  split
  · exact absurd rfl h
  · exact absurd rfl h
  · rfl

/-- All digits that follow are taken; a row that starts with 0 has to be binary. -/
theorem piece_number {d : Char} {ds : List Char} (hdigits : ∀ c ∈ d :: ds, c.isDigit = true)
    (hbits : d ≠ '0' ∨ ∀ c ∈ d :: ds, c = '0' ∨ c = '1')
    (hnext : ∀ c ∈ cs.head?, c.isDigit = false) :
    piece d (ds ++ cs) =
      .ok ⟨some (.number (String.ofList (d :: ds))), (d :: ds).length⟩ := by
  have hd := hdigits d List.mem_cons_self
  have hslash : d ≠ '/' := by rintro rfl; cases hd
  have harrow : ¬ (d = '-' ∧ (ds ++ cs).head? = some '>') := by rintro ⟨rfl, -⟩; cases hd
  have hnumber : isNumber (d :: ds) = true := by
    simpa [isNumber] using hbits
  rw [piece_of_ne_slash hslash, plainPiece,
    if_neg (by simp [isSpace_eq_false_of_isAlphanum (isAlphanum_of_isDigit hd)]), if_neg harrow,
    if_pos hd, ← List.cons_append, Text.takeWhile_append_of_head? hdigits hnext]
  simp only [hnumber, if_true]

/-- All characters of a name that follow are taken. -/
theorem piece_word (hc : c.isAlpha = true) {cs' : List Char}
    (hword : ∀ c ∈ cs', isNameChar c = true) (hnext : ∀ c ∈ cs.head?, isNameChar c = false) :
    piece c (cs' ++ cs) =
      .ok ⟨some (wordToken (String.ofList (c :: cs'))), (c :: cs').length⟩ := by
  have hslash : c ≠ '/' := by rintro rfl; cases hc
  have harrow : ¬ (c = '-' ∧ (cs' ++ cs).head? = some '>') := by rintro ⟨rfl, -⟩; cases hc
  have hname : ∀ x ∈ c :: cs', isNameChar x = true := by
    rintro x (_ | ⟨_, hx⟩)
    · rw [isNameChar, isAlphanum_of_isAlpha hc, Bool.true_or]
    · exact hword x hx
  rw [piece_of_ne_slash hslash, plainPiece,
    if_neg (by simp [isSpace_eq_false_of_isAlphanum (isAlphanum_of_isAlpha hc)]), if_neg harrow,
    if_neg (by simp [isDigit_eq_false_of_isAlpha hc]), if_pos hc, ← List.cons_append,
    Text.takeWhile_append_of_head? hname hnext]

/-- What is a piece is found, except that spaces are found together. -/
theorem piece_of_isPiece {front : List Char} {t : Option Token} (h : IsPiece cs.head? front t) :
    (∃ c, isSpace c = true ∧ front = [c] ∧ t = none) ∨
      ∃ c rest, front = c :: rest ∧ piece c (rest ++ cs) = .ok ⟨t, front.length⟩ := by
  cases h with
  | @space c hc => exact .inl ⟨c, hc, rfl, rfl⟩
  | @lineComment body hline hnext =>
    refine .inr ⟨_, _, rfl, ?_⟩
    have htake : (body ++ cs).takeWhile (· != '\n') = body :=
      Text.takeWhile_append_of_head? (fun c hc => bne_iff_ne.2 fun h => hline (h ▸ hc))
        fun c hc => by simpa using hnext c hc
    simp only [List.cons_append, piece, htake, List.length_cons]
    rw [Nat.add_comm]
  | @blockComment body hbody =>
    refine .inr ⟨_, _, rfl, ?_⟩
    have hlength : blockLength? (body ++ ['*', '/'] ++ cs) = some (body.length + 2) :=
      blockLength?_eq_some_iff.2 ⟨body, cs, by simp, rfl, hbody⟩
    simp only [List.cons_append, piece, hlength, List.length_cons, List.length_append,
      List.length_nil, Nat.add_comm 2]
  | arrow => exact .inr ⟨_, _, rfl, rfl⟩
  | number hdigits hbits hnext => exact .inr ⟨_, _, rfl, piece_number hdigits hbits hnext⟩
  | word hc hword hnext => exact .inr ⟨_, _, rfl, piece_word hc hword hnext⟩
  | @symbol s =>
    refine .inr ⟨_, _, rfl, ?_⟩
    cases s <;> rfl

/-! ## The tokens of a text are found -/

theorem ite_newline_add_count (c : Char) (line : Nat) (cs : List Char) :
    (if c = '\n' then line + 1 else line) + cs.count '\n' = line + (c :: cs).count '\n' := by
  by_cases hc : c = '\n'
  · simp only [hc, if_true, List.count_cons_self]
    omega
  · rw [if_neg hc, List.count_cons_of_ne hc]

/-- Characters that are to be skipped count as lines only. -/
theorem lexFrom_skip (front : List Char) (line : Nat) (read : List Lexeme) (cs : List Char) :
    lexFrom front.length line read (front ++ cs) =
      lexFrom 0 (line + front.count '\n') read cs := by
  induction front generalizing line with
  | nil => rfl
  | cons c front ih =>
    rw [← ite_newline_add_count]
    exact ih _

/-- One step of the lexer takes one piece. -/
theorem lexFrom_of_piece {p : Piece} (h : piece c cs = .ok p) (line : Nat) (read : List Lexeme) :
    lexFrom 0 line read (c :: cs) = lexFrom (p.length - 1) (if c = '\n' then line + 1 else line)
      ((p.token?.map (⟨·, line⟩)).toList ++ read) cs := by
  simp only [lexFrom, h]

theorem piece_of_isSpace (h : isSpace c = true) :
    piece c cs = .ok ⟨none, ((c :: cs).takeWhile isSpace).length⟩ := by
  have hslash : c ≠ '/' := by rintro rfl; cases h
  rw [piece_of_ne_slash hslash, plainPiece, if_pos h]

/-- Spaces are skipped one by one or all at once. -/
theorem lexFrom_spaces (line : Nat) (read : List Lexeme) (cs : List Char) :
    lexFrom 0 line read cs = lexFrom (cs.takeWhile isSpace).length line read cs := by
  cases cs with
  | nil => rfl
  | cons c cs =>
    by_cases hc : isSpace c = true
    · rw [lexFrom_of_piece (piece_of_isSpace hc), List.takeWhile_cons_of_pos hc]
      rfl
    · rw [List.takeWhile_cons_of_neg hc, List.length_nil]

theorem lexFrom_isPiece {front : List Char} {t : Option Token} (h : IsPiece cs.head? front t)
    (line : Nat) (read : List Lexeme) : lexFrom 0 line read (front ++ cs) =
      lexFrom 0 (line + front.count '\n') ((t.map (⟨·, line⟩)).toList ++ read) cs := by
  obtain ⟨c, hc, rfl, rfl⟩ | ⟨c, rest, rfl, hpiece⟩ := piece_of_isPiece h
  · rw [List.singleton_append, lexFrom_of_piece (piece_of_isSpace hc),
      List.takeWhile_cons_of_pos hc, ← ite_newline_add_count, lexFrom_spaces _ _ cs]
    rfl
  · rw [List.cons_append, lexFrom_of_piece hpiece, ← ite_newline_add_count]
    exact lexFrom_skip rest _ _ cs

/-- What is written is accepted, whatever has been read before. -/
theorem lexFrom_written {ts : List Token} (h : Written cs ts) (line : Nat) (read : List Lexeme) :
    ∃ lexemes lastLine, lexFrom 0 line read cs = .ok ⟨read.reverse ++ lexemes, lastLine⟩ ∧
      tokens lexemes = ts := by
  induction h generalizing line read with
  | nil => exact ⟨[], line, by simp [lexFrom], rfl⟩
  | @cons front cs t ts hpiece _ ih =>
    obtain ⟨lexemes, lastLine, hok, htokens⟩ :=
      ih (line + front.count '\n') ((t.map (⟨·, line⟩)).toList ++ read)
    refine ⟨(t.map (⟨·, line⟩)).toList ++ lexemes, lastLine, ?_, ?_⟩
    · rw [lexFrom_isPiece hpiece, hok]
      cases t <;> simp
    · cases t <;> simp [htokens]

theorem lex_of_written {text : String} {ts : List Token} (h : Written text.toList ts) :
    ∃ script, lex text = .ok script ∧ tokens script.lexemes = ts := by
  obtain ⟨lexemes, lastLine, hok, htokens⟩ := lexFrom_written h 1 []
  exact ⟨_, hok, htokens⟩

/-! ## What is found is written -/

theorem Written.spaces {spaces : List Char} {ts : List Token} (hcs : Written cs ts)
    (h : ∀ c ∈ spaces, isSpace c = true) : Written (spaces ++ cs) ts := by
  induction spaces with
  | nil => exact hcs
  | cons c spaces ih =>
    have hrest := ih fun c' h' => h c' (List.mem_cons_of_mem _ h')
    exact .cons (.space (h c List.mem_cons_self)) hrest

/-- The piece at the front of a text is written there. -/
def Starts (c : Char) (rest : List Char) (p : Piece) : Prop :=
  ∃ front cs, rest = front ++ cs ∧ p.length = front.length + 1 ∧
    ∀ ts, Written cs ts → Written (c :: rest) (p.token?.toList ++ ts)

theorem Starts.of_isPiece {front : List Char} {t : Option Token}
    (h : IsPiece cs.head? (c :: front) t) (hrest : rest = front ++ cs) :
    Starts c rest ⟨t, front.length + 1⟩ :=
  ⟨front, cs, hrest, rfl, fun _ hts => hrest ▸ .cons h hts⟩

/-- The items of a run are followed by an item that does not belong to it. -/
theorem starts_run {q : Char → Bool} {t : Option Token} (hc : q c = true)
    (h : IsPiece (rest.dropWhile q).head? ((c :: rest).takeWhile q) t) :
    Starts c rest ⟨t, ((c :: rest).takeWhile q).length⟩ := by
  rw [List.takeWhile_cons_of_pos hc] at h ⊢
  exact .of_isPiece h List.takeWhile_append_dropWhile.symm

theorem eq_char_of_ite {x : Char} {s t : Symbol} {o : Option Symbol}
    (h : (if c = x then some t else o) = some s) (hx : x = t.char)
    (ho : o = some s → c = s.char) : c = s.char := by
  split at h
  · next hc =>
    obtain rfl := Option.some.inj h
    exact hc.trans hx
  · exact ho h

theorem eq_char_of_ofChar? {s : Symbol} (h : Symbol.ofChar? c = some s) : c = s.char := by
  unfold Symbol.ofChar? at h
  iterate 12 refine eq_char_of_ite h rfl fun h => ?_
  cases h

theorem of_mem_takeWhile {q : Char → Bool} {x : Char} (h : x ∈ cs.takeWhile q) : q x = true :=
  List.all_eq_true.1 List.all_takeWhile x h

theorem starts_of_plainPiece {p : Piece} (h : plainPiece c rest = .ok p) : Starts c rest p := by
  simp only [plainPiece] at h
  split at h
  · next hc =>
    cases h
    rw [List.takeWhile_cons_of_pos hc]
    refine ⟨rest.takeWhile isSpace, rest.dropWhile isSpace,
      List.takeWhile_append_dropWhile.symm, rfl, fun ts hts => .cons (.space hc) ?_⟩
    have hspaces : ∀ x ∈ rest.takeWhile isSpace, isSpace x = true := fun _ => of_mem_takeWhile
    have hrest := hts.spaces hspaces
    rwa [List.takeWhile_append_dropWhile] at hrest
  split at h
  · next harrow =>
    cases h
    obtain ⟨rfl, hhead⟩ := harrow
    obtain ⟨cs, rfl⟩ := List.head?_eq_some_iff.1 hhead
    exact .of_isPiece .arrow rfl
  split at h
  · next hc =>
    split at h
    · next hnumber =>
      cases h
      refine starts_run hc ?_
      rw [List.takeWhile_cons_of_pos hc] at hnumber ⊢
      refine .number ?_ (by simpa [isNumber] using hnumber) head?_dropWhile
      rintro x (_ | ⟨_, hx⟩)
      · exact hc
      · exact of_mem_takeWhile hx
    · cases h
  split at h
  · next hc =>
    cases h
    have hname : isNameChar c = true := by rw [isNameChar, isAlphanum_of_isAlpha hc, Bool.true_or]
    refine starts_run hname ?_
    rw [List.takeWhile_cons_of_pos hname]
    exact .word hc (fun _ => of_mem_takeWhile) head?_dropWhile
  split at h
  · next s hs =>
    cases h
    obtain rfl := eq_char_of_ofChar? hs
    exact .of_isPiece .symbol rfl
  · cases h

/-- A slash starts a comment of one of the two kinds, or is refused. -/
theorem starts_of_piece {p : Piece} (h : piece c rest = .ok p) : Starts c rest p := by
  unfold piece at h
  split at h
  · next rest =>
    cases h
    have hline : '\n' ∉ rest.takeWhile (· != '\n') := fun h =>
      absurd (of_mem_takeWhile h) (by decide)
    have hnext : ∀ x ∈ (rest.dropWhile (· != '\n')).head?, x = '\n' := fun x hx => by
      simpa using head?_dropWhile x hx
    rw [Nat.add_comm]
    exact .of_isPiece (.lineComment hline hnext)
      (by rw [List.cons_append, List.takeWhile_append_dropWhile])
  · next rest =>
    split at h
    · next n hn =>
      cases h
      obtain ⟨cs, tail, rfl, rfl, hnot⟩ := blockLength?_eq_some_iff.1 hn
      have hpiece : IsPiece tail.head? ('/' :: '*' :: (cs ++ ['*', '/'])) none := .blockComment hnot
      have hstarts : Starts '/' ('*' :: (cs ++ '*' :: '/' :: tail)) ⟨none, _⟩ :=
        .of_isPiece hpiece (by simp)
      simpa [Nat.add_comm 2] using hstarts
    · cases h
  · exact starts_of_plainPiece h

/-- What the lexer accepts is written, apart from the characters it was to skip. -/
theorem written_of_lexFrom {skip line : Nat} {read : List Lexeme} {script : Script}
    (h : lexFrom skip line read cs = .ok script) : ∃ lexemes,
      script.lexemes = read.reverse ++ lexemes ∧ Written (cs.drop skip) (tokens lexemes) := by
  induction cs generalizing skip line read with
  | nil =>
    cases h
    exact ⟨[], by simp, by simpa using .nil⟩
  | cons c cs ih =>
    cases skip with
    | succ skip => exact ih h
    | zero =>
      rw [lexFrom] at h
      split at h
      · cases h
      · next p hpiece =>
        obtain ⟨front, rest, rfl, hlength, hwritten⟩ := starts_of_piece hpiece
        obtain ⟨lexemes, hlexemes, hrest⟩ := ih h
        rw [hlength, Nat.add_sub_cancel, List.drop_left] at hrest
        refine ⟨(p.token?.map (⟨·, line⟩)).toList ++ lexemes, ?_, ?_⟩
        · rw [hlexemes]
          cases p.token? <;> simp
        · have htokens := hwritten _ hrest
          cases htoken : p.token? <;> simpa [htoken] using htokens

theorem written_of_lex {text : String} {script : Script} (h : lex text = .ok script) :
    Written text.toList (tokens script.lexemes) := by
  obtain ⟨lexemes, hlexemes, hwritten⟩ := written_of_lexFrom h
  rw [hlexemes]
  exact hwritten

end FuseMap.Design
