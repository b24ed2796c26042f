import FuseMap.Proofs.Lexing

/-! # Where the tokens stand in a text

A `Layout` is a text cut into its tokens and the gaps around them. `IsGap` says what a gap may hold
and `Token.Legal` what a token may be spelled like; then a text is read just if it has a layout in
which no token is followed by a character that would prolong it, and what is read are the tokens
of that layout, each with the line in which it starts (`lex_eq_ok_iff`).
-/

namespace FuseMap.Design

/-! ## Gaps -/

/-- The characters between two tokens are white space and comments. -/
inductive IsGap : List Char → Prop
  | nil : IsGap []
  | space {c : Char} {cs : List Char} : isSpace c = true → IsGap cs → IsGap (c :: cs)
  | lineComment {body cs : List Char} :
    '\n' ∉ body → IsGap cs → IsGap ('/' :: '/' :: (body ++ '\n' :: cs))
  | blockComment {body cs : List Char} :
    ¬ ['*', '/'] <:+: body → IsGap cs → IsGap ('/' :: '*' :: (body ++ '*' :: '/' :: cs))

/-- The characters after the last token are white space and comments. The text may end in a line
comment. -/
inductive IsEnd : List Char → Prop
  | gap {cs : List Char} : IsGap cs → IsEnd cs
  | openComment {cs body : List Char} :
    IsGap cs → '\n' ∉ body → IsEnd (cs ++ '/' :: '/' :: body)

variable {c : Char} {gap cs front : List Char}

theorem IsGap.head (h : IsGap gap) : ∀ c ∈ gap.head?, isSpace c = true ∨ c = '/' := by
  intro c hc
  cases h with
  | nil => cases hc
  | space hspace =>
    cases hc
    exact .inl hspace
  | lineComment | blockComment =>
    cases hc
    exact .inr rfl

theorem IsEnd.head (h : IsEnd gap) : ∀ c ∈ gap.head?, isSpace c = true ∨ c = '/' := by
  cases h with
  | gap hgap => exact hgap.head
  | @openComment gap body hgap =>
    cases gap with
    | nil =>
      intro c hc
      cases hc
      exact .inr rfl
    | cons c gap => exact hgap.head

/-- The closing mark of a block comment shares no character with what stands before it. -/
theorem infix_append_star_iff {body : List Char} :
    ['*', '/'] <:+: body ++ ['*'] ↔ ['*', '/'] <:+: body := by
  refine ⟨?_, fun h => h.trans (List.prefix_append _ _).isInfix⟩
  rintro ⟨before, after, h⟩
  rcases List.eq_nil_or_concat after with rfl | ⟨after, c, rfl⟩
  · rw [List.append_nil, List.append_cons] at h
    cases (List.append_inj_right' h rfl)
  · rw [List.concat_eq_append, ← List.append_assoc] at h
    exact ⟨before, after, List.append_inj_left' h rfl⟩

/-- The characters of `gap` are skipped in front of `cs`, and their lines are counted. -/
def Skipped (gap cs : List Char) : Prop :=
  ∀ line read, lexFrom 0 line read (gap ++ cs) = lexFrom 0 (line + gap.count '\n') read cs

theorem Skipped.of_isPiece (h : IsPiece cs.head? gap none) : Skipped gap cs :=
  fun line read => lexFrom_isPiece h line read

theorem Skipped.append (hfront : Skipped front (gap ++ cs)) (hgap : Skipped gap cs) :
    Skipped (front ++ gap) cs := by
  intro line read
  rw [List.append_assoc, hfront, hgap, List.count_append, Nat.add_assoc]

theorem IsGap.skipped (h : IsGap gap) (cs : List Char) : Skipped gap cs := by
  induction h with
  | nil => exact fun _ _ => rfl
  | space hc _ ih => exact .append (.of_isPiece (.space hc)) ih
  | @lineComment body gap hbody _ ih =>
    have hline : Skipped ('/' :: '/' :: body) ('\n' :: (gap ++ cs)) :=
      .of_isPiece (.lineComment hbody (by simp))
    have hnewline : Skipped ['\n'] (gap ++ cs) := .of_isPiece (.space rfl)
    exact hline.append (hnewline.append ih)
  | @blockComment body gap hbody _ ih =>
    have hblock : Skipped ('/' :: '*' :: (body ++ ['*', '/'])) (gap ++ cs) :=
      .of_isPiece (.blockComment (mt infix_append_star_iff.1 hbody))
    simpa using hblock.append ih

theorem IsEnd.skipped (h : IsEnd gap) : Skipped gap [] := by
  cases h with
  | gap hgap => exact hgap.skipped []
  | @openComment gap body hgap hbody =>
    have hline : Skipped ('/' :: '/' :: body) [] := .of_isPiece (.lineComment hbody (by simp))
    exact .append (hgap.skipped _) hline

/-- A gap grows at its front, but a line comment in front of an empty gap has no end in it. -/
theorem IsGap.append_of_isPiece (hgap : IsGap gap) (h : IsPiece (gap ++ cs).head? front none) :
    IsGap (front ++ gap) ∨
      gap = [] ∧ (∀ c ∈ cs.head?, c = '\n') ∧ ∃ body, '\n' ∉ body ∧ front = '/' :: '/' :: body := by
  cases h with
  | space hc => exact .inl (.space hc hgap)
  | @lineComment body hbody hnext =>
    cases gap with
    | nil => exact .inr ⟨rfl, hnext, body, hbody, rfl⟩
    | cons c gap =>
      obtain rfl : c = '\n' := hnext c rfl
      cases hgap with
      | space _ hgap => exact .inl (.lineComment hbody hgap)
  | @blockComment body hbody =>
    have hblock := IsGap.blockComment (mt infix_append_star_iff.2 hbody) hgap
    exact .inl (by simpa using hblock)

theorem IsGap.append_of_isPiece_of_ne (hgap : IsGap gap) (hc : c ≠ '\n')
    (h : IsPiece (gap ++ c :: cs).head? front none) : IsGap (front ++ gap) := by
  obtain hgap | ⟨-, hnext, -⟩ := hgap.append_of_isPiece h
  · exact hgap
  · exact absurd (hnext c rfl) hc

theorem IsEnd.append_of_isPiece (hend : IsEnd gap) (h : IsPiece gap.head? front none) :
    IsEnd (front ++ gap) := by
  cases hend with
  | gap hgap =>
    rw [← List.append_nil gap] at h
    obtain hgap | ⟨rfl, -, body, hbody, rfl⟩ := hgap.append_of_isPiece h
    · exact .gap hgap
    · rw [List.append_nil]
      exact .openComment .nil hbody
  | @openComment gap body hgap hbody =>
    rw [← List.append_assoc]
    exact .openComment (hgap.append_of_isPiece_of_ne (by decide) h) hbody

/-! ## Tokens -/

namespace Token

/-- The token is spelled like one of its kind: a name is no keyword, and digits with a zero in
front are bits. -/
def Legal : Token → Prop
  | .identifier name => isName name = true ∧ ∀ k : Keyword, name ≠ k.text
  | .number digits =>
    digits.toList ≠ [] ∧ (∀ c ∈ digits.toList, c.isDigit = true) ∧
      (digits.toList.head? ≠ some '0' ∨ ∀ c ∈ digits.toList, c = '0' ∨ c = '1')
  | .keyword _ | .arrow | .symbol _ => True

/-- Whether the token would go on with the character `c`. -/
def continues (c : Char) : Token → Bool
  | .keyword _ | .identifier _ => isNameChar c
  | .number _ => c.isDigit
  | .arrow | .symbol _ => false

end Token

/-- The keywords have different spellings. -/
theorem lookup_keywords_eq_some_iff {word : String} {k : Keyword} :
    keywords.lookup word = some k ↔ word = k.text := by
  constructor
  · intro h
    obtain ⟨before, after, hkeywords, -⟩ := List.lookup_eq_some_iff.1 h
    have hmem : (word, k) ∈ keywords := by simp [hkeywords]
    obtain ⟨k', -, hk'⟩ := List.mem_map.1 hmem
    cases hk'
    rfl
  · rintro rfl
    cases k <;> decide

theorem wordToken_text (k : Keyword) : wordToken k.text = .keyword k := by
  rw [wordToken, lookup_keywords_eq_some_iff.2 rfl]

theorem wordToken_of_ne {word : String} (h : ∀ k : Keyword, word ≠ k.text) :
    wordToken word = .identifier word := by
  have hnone : keywords.lookup word = none :=
    Option.eq_none_iff_forall_ne_some.2 fun k hk => h k (lookup_keywords_eq_some_iff.1 hk)
  rw [wordToken, hnone]

theorem isName_keyword (k : Keyword) : isName k.text = true := by
  cases k <;> decide

theorem wordToken_spelled {word : String} (h : isName word = true) :
    (wordToken word).text = word ∧ (wordToken word).Legal ∧
      ∀ c, (wordToken word).continues c = isNameChar c := by
  by_cases hkeyword : ∃ k : Keyword, word = k.text
  · obtain ⟨k, rfl⟩ := hkeyword
    rw [wordToken_text]
    exact ⟨rfl, trivial, fun _ => rfl⟩
  · have hne := not_exists.1 hkeyword
    rw [wordToken_of_ne hne]
    exact ⟨rfl, ⟨h, hne⟩, fun _ => rfl⟩

theorem isPiece_of_isName {word : String} {next : Option Char} (h : isName word = true)
    (hnext : ∀ c ∈ next, isNameChar c = false) :
    IsPiece next word.toList (some (wordToken word)) := by
  obtain ⟨c, cs, hword, hc, hcs⟩ := isName_iff.1 h
  have hpiece := IsPiece.word hc hcs hnext
  rwa [← hword, String.ofList_toList] at hpiece

/-- A piece that is a token is spelled as it should be and is as long as it can be. -/
theorem isPiece_some_iff {next : Option Char} {t : Token} :
    IsPiece next front (some t) ↔
      front = t.text.toList ∧ t.Legal ∧ ∀ c ∈ next, t.continues c = false := by
  constructor
  · intro h
    generalize ht : some t = t? at h
    cases h with
    | space | lineComment | blockComment => cases ht
    | arrow | symbol =>
      cases ht
      exact ⟨by simp [Token.text], trivial, fun _ _ => rfl⟩
    | number hdigits hbits hnext =>
      cases ht
      exact ⟨by simp [Token.text], ⟨by simp, by simpa using hdigits, by simpa using hbits⟩, hnext⟩
    | @word c cs hc hcs hnext =>
      cases ht
      have hname : isName (String.ofList (c :: cs)) = true :=
        isName_iff.2 ⟨c, cs, String.toList_ofList, hc, hcs⟩
      obtain ⟨htext, hlegal, hcontinues⟩ := wordToken_spelled hname
      refine ⟨by rw [htext, String.toList_ofList], hlegal, fun c hc => ?_⟩
      rw [hcontinues, hnext c hc]
  · rintro ⟨rfl, hlegal, hnext⟩
    cases t with
    | keyword k =>
      have hpiece := isPiece_of_isName (isName_keyword k) hnext
      rwa [wordToken_text] at hpiece
    | identifier name =>
      have hpiece := isPiece_of_isName hlegal.1 hnext
      rwa [wordToken_of_ne hlegal.2] at hpiece
    | number digits =>
      obtain ⟨hne, hdigits, hbits⟩ := hlegal
      obtain ⟨d, ds, hds⟩ := List.exists_cons_of_ne_nil hne
      rw [hds] at hdigits hbits
      have hpiece := IsPiece.number hdigits (by simpa using hbits) hnext
      rwa [← hds, String.ofList_toList] at hpiece
    | arrow => exact .arrow
    | symbol s =>
      have hchar : (Token.symbol s).text.toList = [s.char] := by simp [Token.text]
      rw [hchar]
      exact .symbol

theorem Token.Legal.exists_cons {t : Token} (h : t.Legal) :
    ∃ c cs, t.text.toList = c :: cs ∧ c ≠ '\n' := by
  cases t with
  | keyword k => cases k <;> exact ⟨_, _, rfl, by decide⟩
  | identifier name =>
    obtain ⟨c, cs, hname, hc, -⟩ := isName_iff.1 h.1
    exact ⟨c, cs, hname, by rintro rfl; cases hc⟩
  | number digits =>
    obtain ⟨d, ds, hds⟩ := List.exists_cons_of_ne_nil h.1
    have hd : d.isDigit = true := h.2.1 d (by simp [hds])
    exact ⟨d, ds, hds, by rintro rfl; cases hd⟩
  | arrow => exact ⟨_, _, rfl, by decide⟩
  | symbol s => cases s <;> exact ⟨_, _, rfl, by decide⟩

/-- No token goes on with what starts a gap. -/
theorem Token.continues_eq_false (t : Token) (h : isSpace c = true ∨ c = '/') :
    t.continues c = false := by
  rcases h with h | rfl
  · rcases eq_of_isSpace h with rfl | rfl | rfl | rfl <;> cases t <;> rfl
  · cases t <;> rfl

/-! ## Layouts -/

/-- A text as its tokens, each with the gap before it, and the gap after them. -/
inductive Layout
  | last (gap : List Char)
  | token (gap : List Char) (t : Token) (rest : Layout)

namespace Layout

def chars : Layout → List Char
  | .last gap => gap
  | .token gap t rest => gap ++ (t.text.toList ++ rest.chars)

def text (l : Layout) : String :=
  String.ofList l.chars

/-- The tokens with their lines, if the text `before` stands in front of the layout: the line of a
token is one more than the number of line ends before it. -/
def lexemes (before : List Char) : Layout → List Lexeme
  | .last _ => []
  | .token gap t rest =>
    ⟨t, 1 + (before ++ gap).count '\n'⟩ :: rest.lexemes (before ++ gap ++ t.text.toList)

def script (l : Layout) : Script :=
  ⟨l.lexemes [], 1 + l.chars.count '\n'⟩

/-- The gaps are gaps and the tokens are spelled like tokens. -/
def Spaced : Layout → Prop
  | .last gap => IsEnd gap
  | .token gap t rest => IsGap gap ∧ t.Legal ∧ rest.Spaced

/-- No gap between two tokens is empty. -/
def Separated : Layout → Prop
  | .last _ | .token _ _ (.last _) => True
  | .token _ _ (.token gap t rest) => gap ≠ [] ∧ (token gap t rest).Separated

/-- No token is followed by a character with which it would go on. -/
def Maximal : Layout → Prop
  | .last _ => True
  | .token _ t rest => (∀ c ∈ rest.chars.head?, t.continues c = false) ∧ rest.Maximal

/-- If there is something between all tokens, none of them can go on. -/
theorem maximal_of_separated {l : Layout} (hspaced : l.Spaced) (h : l.Separated) : l.Maximal := by
  fun_induction Separated l with
  | case1 => trivial
  | case2 gap t gap' =>
    exact ⟨fun c hc => t.continues_eq_false (hspaced.2.2.head c hc), trivial⟩
  | case3 gap t gap' t' rest ih =>
    obtain ⟨hne, hrest⟩ := h
    refine ⟨fun c hc => t.continues_eq_false ?_, ih hspaced.2.2 hrest⟩
    rw [chars, List.head?_append_of_ne_nil _ hne] at hc
    exact hspaced.2.2.1.head c hc

theorem lexFrom_chars {l : Layout} (hspaced : l.Spaced) (hmaximal : l.Maximal)
    (before : List Char) (read : List Lexeme) :
    lexFrom 0 (1 + before.count '\n') read l.chars =
      .ok ⟨read.reverse ++ l.lexemes before, 1 + (before ++ l.chars).count '\n'⟩ := by
  -- The line that is reached depends on the text before the layout only through its line ends.
  induction l generalizing before read with
  | last gap =>
    have hskip := hspaced.skipped (1 + before.count '\n') read
    rw [List.append_nil] at hskip
    simp [chars, lexemes, hskip, lexFrom, Nat.add_assoc]
  | token gap t rest ih =>
    obtain ⟨hgap, hlegal, hrest⟩ := hspaced
    obtain ⟨hnext, hmaximal⟩ := hmaximal
    have hpiece := isPiece_some_iff.2 ⟨rfl, hlegal, hnext⟩
    rw [chars, hgap.skipped, lexFrom_isPiece hpiece]
    have hih := ih hrest hmaximal (before ++ gap ++ t.text.toList)
      (⟨t, 1 + (before ++ gap).count '\n'⟩ :: read)
    simpa [lexemes, Nat.add_assoc] using hih

theorem lex_text {l : Layout} (hspaced : l.Spaced) (hmaximal : l.Maximal) :
    lex l.text = .ok l.script := by
  have hlex := lexFrom_chars hspaced hmaximal [] []
  rw [lex, text, String.toList_ofList]
  exact hlex

/-- Characters that write tokens are a layout of them: what stands between two tokens is one gap. -/
theorem exists_of_written {cs : List Char} {ts : List Token} (h : Written cs ts) :
    ∃ l : Layout, l.Spaced ∧ l.Maximal ∧ l.chars = cs := by
  induction h with
  | nil => exact ⟨.last [], .gap .nil, trivial, rfl⟩
  | @cons front cs t ts hpiece _ ih =>
    obtain ⟨l, hspaced, hmaximal, rfl⟩ := ih
    cases t with
    | some t =>
      obtain ⟨rfl, hlegal, hnext⟩ := isPiece_some_iff.1 hpiece
      exact ⟨.token [] t l, ⟨.nil, hlegal, hspaced⟩, ⟨hnext, hmaximal⟩, rfl⟩
    | none =>
      cases l with
      | last gap => exact ⟨.last (front ++ gap), hspaced.append_of_isPiece hpiece, trivial, rfl⟩
      | token gap t rest =>
        obtain ⟨hgap, hlegal, hrest⟩ := hspaced
        -- A line comment is ended by the gap after it, since no token starts with a line end.
        obtain ⟨c, cs, htext, hc⟩ := hlegal.exists_cons
        rw [chars, htext] at hpiece
        have hfront := hgap.append_of_isPiece_of_ne hc hpiece
        exact ⟨.token (front ++ gap) t rest, ⟨hfront, hlegal, hrest⟩, hmaximal,
          List.append_assoc _ _ _⟩

end Layout

open Layout in
/-- A text is read just if it has a layout, and the layout says what is read. -/
theorem lex_eq_ok_iff {text : String} {script : Script} :
    lex text = .ok script ↔
      ∃ l : Layout, l.Spaced ∧ l.Maximal ∧ l.text = text ∧ l.script = script := by
  constructor
  · intro h
    obtain ⟨l, hspaced, hmaximal, hchars⟩ := exists_of_written (written_of_lex h)
    have htext : l.text = text := by rw [Layout.text, hchars, String.ofList_toList]
    have hlex := lex_text hspaced hmaximal
    rw [htext, h] at hlex
    cases hlex
    exact ⟨l, hspaced, hmaximal, htext, rfl⟩
  · rintro ⟨l, hspaced, hmaximal, rfl, rfl⟩
    exact lex_text hspaced hmaximal

/-- Tokens with gaps between them are read as they are, each with its line; and what is read from a
text are the tokens of a layout of it, in which gaps may be empty. -/
theorem lex_recovers_tokens_and_lines :
    (∀ l : Layout, l.Spaced → l.Separated → lex l.text = .ok l.script) ∧
      ∀ text script, lex text = .ok script →
        ∃ l : Layout, l.Spaced ∧ l.text = text ∧ l.script = script := by
  refine ⟨fun l hspaced hseparated => ?_, fun text script h => ?_⟩
  · exact Layout.lex_text hspaced (Layout.maximal_of_separated hspaced hseparated)
  · obtain ⟨l, hspaced, -, htext, hscript⟩ := lex_eq_ok_iff.1 h
    exact ⟨l, hspaced, htext, hscript⟩

/-- The text `/*` line end `//*/pin // 1 /*` line end `01` tab `;// end`. -/
def commentedLayout : Layout :=
  .token ['/', '*', '\n', '/', '/', '*', '/'] (.keyword .pin)
    (.token [' ', '/', '/', ' ', '1', ' ', '/', '*', '\n'] (.number "01")
      (.token ['\t'] (.symbol .semicolon) (.last ['/', '/', ' ', 'e', 'n', 'd'])))

theorem spaced_commentedLayout : commentedLayout.Spaced := by
  have hblock : IsGap ['/', '*', '\n', '/', '/', '*', '/'] :=
    @IsGap.blockComment ['\n', '/', '/'] [] (by decide) .nil
  have hline : IsGap [' ', '/', '/', ' ', '1', ' ', '/', '*', '\n'] :=
    .space rfl (@IsGap.lineComment [' ', '1', ' ', '/', '*'] [] (by decide) .nil)
  have hnumber : (Token.number "01").Legal := ⟨by simp, by simp, .inr (by simp)⟩
  exact ⟨hblock, trivial, hline, hnumber, .space rfl .nil, trivial,
    @IsEnd.openComment [] [' ', 'e', 'n', 'd'] .nil (by decide)⟩

theorem lex_recovers_commentedLayout :
    lex commentedLayout.text =
      .ok ⟨[⟨.keyword .pin, 2⟩, ⟨.number "01", 3⟩, ⟨.symbol .semicolon, 3⟩], 3⟩ ∧
    ∃ l : Layout, l.Spaced ∧ l.text = "a->b" ∧
      l.script = ⟨[⟨.identifier "a", 1⟩, ⟨.arrow, 1⟩, ⟨.identifier "b", 1⟩], 1⟩ := by
  obtain ⟨hread, hlayout⟩ := lex_recovers_tokens_and_lines
  have hseparated : commentedLayout.Separated := ⟨by decide, by decide, trivial⟩
  exact ⟨hread commentedLayout spaced_commentedLayout hseparated, hlayout _ _ (by decide)⟩

end FuseMap.Design
