import KarelRobot.Token.Cursor
import Mathlib.Data.List.Infix

/-!
# Texts as sequences of lexemes

A text is made of lexemes with blanks and comments in front of them.  The shape of a lexeme is fixed
by its kind, a number ends only where the digits end and a word only where its letters do, and a
comment lasts up to the next end of line or to the first `*/` behind its opening.  The scanner reads
a text as such a sequence, and it reads every text that is one.  Nothing is lost and nothing is
left open: the lexemes and what is skipped make up the whole text, and there is one way only to take
it apart.

* `Trivia` — blanks and comments in front of a text.
* `Token.Kind.Shape`, `Token.Kind.EndsBefore` — how a kind is written, and where it may end.
* `Cursor.Reads`, `Cursor.next_eq_ok_iff` — a token at the beginning of a text.
* `Spelt`, `tokens_iff_spelt` — the tokens of a text are exactly those that spell it.
-/

set_option autoImplicit false
namespace KarelRobot

open Token (Kind)

/-! ## Blanks and comments -/

/-- Blanks and comments, in front of `rest`. -/
inductive Trivia (rest : List Char) : List Char → Prop
  | nil : Trivia rest []
  | blank {c : Char} {cs : List Char} (hc : c ∈ [' ', '\t', '\n', '\x0b', '\x0c', '\r'])
      (hcs : Trivia rest cs) : Trivia rest (c :: cs)
  /-- A comment up to the end of the line or of the whole text. -/
  | lineComment {comment cs : List Char} (hcomment : '\n' ∉ comment)
      (hend : cs.head? = some '\n' ∨ cs ++ rest = []) (hcs : Trivia rest cs) :
      Trivia rest ('/' :: '/' :: (comment ++ cs))
  /-- A comment up to the first `*/` behind its opening. -/
  | blockComment {comment cs : List Char} (hcomment : ¬ ['*', '/'] <:+: comment ++ ['*'])
      (hcs : Trivia rest cs) : Trivia rest ('/' :: '*' :: (comment ++ '*' :: '/' :: cs))

namespace Cursor

theorem isSpace_iff {c : Char} :
    isSpace c = true ↔ c ∈ [' ', '\t', '\n', '\x0b', '\x0c', '\r'] := by
  simp only [isSpace, Bool.or_eq_true, beq_iff_eq, List.mem_cons, List.not_mem_nil, or_false,
    or_assoc]

/-- A comment is closed right at its beginning or later on. -/
theorem closes_cons_iff {c : Char} {cs : List Char} :
    ['*', '/'] <:+: c :: cs ↔ (∃ rest, c = '*' ∧ cs = '/' :: rest) ∨ ['*', '/'] <:+: cs := by
  rw [List.infix_cons_iff, List.cons_prefix_cons, List.cons_prefix_iff]
  simp only [List.nil_prefix, and_true, exists_and_left, eq_comm]

/-- A comment is first closed by the `*/` behind it if it does not begin with `*/` and the same
holds from its second character on. -/
theorem not_closes_cons_iff {c : Char} {comment rest : List Char} :
    ¬ ['*', '/'] <:+: c :: comment ++ ['*'] ↔
      (∀ following, c = '*' → comment ++ '*' :: '/' :: rest = '/' :: following → False) ∧
        ¬ ['*', '/'] <:+: comment ++ ['*'] := by
  rw [List.cons_append, closes_cons_iff, not_or]
  refine and_congr_left' ?_
  cases comment with
  | nil => simp
  | cons d comment => simp +contextual

/-- What is skipped in front of `rest`, from the inside of a comment on. -/
def Gap.Skips (rest : List Char) : Gap → List Char → Prop
  | code, cs => Trivia rest cs
  | lineComment, cs => ∃ comment following, cs = comment ++ following ∧ '\n' ∉ comment ∧
      (following.head? = some '\n' ∨ following ++ rest = []) ∧ Trivia rest following
  | blockComment _, cs => ∃ comment following, cs = comment ++ '*' :: '/' :: following ∧
      ¬ ['*', '/'] <:+: comment ++ ['*'] ∧ Trivia rest following

namespace Gap.Skips

variable {rest skipped : List Char} {c : Char} {start : Nat}

theorem lineComment (h : Gap.lineComment.Skips rest skipped) :
    code.Skips rest ('/' :: '/' :: skipped) := by
  obtain ⟨comment, following, rfl, hcomment, hend, htrivia⟩ := h
  exact .lineComment hcomment hend htrivia

theorem blockComment (h : (Gap.blockComment start).Skips rest skipped) :
    code.Skips rest ('/' :: '*' :: skipped) := by
  obtain ⟨comment, following, rfl, hcomment, htrivia⟩ := h
  exact .blockComment hcomment htrivia

theorem blank (hc : isSpace c = true) (h : code.Skips rest skipped) :
    code.Skips rest (c :: skipped) :=
  Trivia.blank (isSpace_iff.1 hc) h

/-- A line comment goes on, or its line ends. -/
theorem inLine (h : (if c = '\n' then code else Gap.lineComment).Skips rest skipped) :
    Gap.lineComment.Skips rest (c :: skipped) := by
  split at h
  next hc =>
    -- the end of the line is a blank behind the comment
    subst hc
    exact ⟨[], '\n' :: skipped, rfl, List.not_mem_nil, .inl rfl, .blank (by decide) h⟩
  next hc =>
    obtain ⟨comment, following, rfl, hcomment, hend, htrivia⟩ := h
    exact ⟨c :: comment, following, rfl, List.not_mem_cons_of_ne_of_not_mem (Ne.symm hc) hcomment,
      hend, htrivia⟩

theorem close (h : code.Skips rest skipped) :
    (Gap.blockComment start).Skips rest ('*' :: '/' :: skipped) :=
  ⟨[], skipped, rfl, by decide, h⟩

/-- A block comment goes on where it is not closed. -/
theorem inBlock (hopen : ∀ following, c = '*' → skipped ++ rest = '/' :: following → False)
    (h : (Gap.blockComment start).Skips rest skipped) :
    (Gap.blockComment start).Skips rest (c :: skipped) := by
  obtain ⟨comment, following, rfl, hcomment, htrivia⟩ := h
  refine ⟨c :: comment, following, rfl, ?_, htrivia⟩
  rw [List.append_assoc] at hopen
  exact not_closes_cons_iff.2 ⟨hopen, hcomment⟩

end Gap.Skips

/-- What is skipped without a fault consists of blanks and comments. -/
theorem skips_of_skip {gap : Gap} {position : Nat} {cs : List Char} {here : Cursor}
    (h : skip gap position cs = (here, none)) :
    ∃ skipped, cs = skipped ++ here.rest ∧ gap.Skips here.rest skipped ∧
      here.position = position + skipped.length := by
  fun_induction skip gap position cs with
  | case1 position rest ih =>
    obtain ⟨skipped, rfl, hskips, hposition⟩ := ih h
    refine ⟨'/' :: '/' :: skipped, rfl, hskips.lineComment, ?_⟩
    rw [hposition, List.length_cons, List.length_cons]
    omega
  | case2 position rest ih =>
    obtain ⟨skipped, rfl, hskips, hposition⟩ := ih h
    refine ⟨'/' :: '*' :: skipped, rfl, hskips.blockComment, ?_⟩
    rw [hposition, List.length_cons, List.length_cons]
    omega
  | case3 => cases h
  | case4 position c rest _ _ _ hspace ih =>
    obtain ⟨skipped, rfl, hskips, hposition⟩ := ih h
    refine ⟨c :: skipped, rfl, hskips.blank hspace, ?_⟩
    rw [hposition, List.length_cons]
    omega
  | case5 position c rest =>
    cases h
    exact ⟨[], rfl, .nil, rfl⟩
  | case6 position c rest ih =>
    obtain ⟨skipped, rfl, hskips, hposition⟩ := ih h
    refine ⟨c :: skipped, rfl, hskips.inLine, ?_⟩
    rw [hposition, List.length_cons]
    omega
  | case7 start position rest ih =>
    obtain ⟨skipped, rfl, hskips, hposition⟩ := ih h
    refine ⟨'*' :: '/' :: skipped, rfl, hskips.close, ?_⟩
    rw [hposition, List.length_cons, List.length_cons]
    omega
  | case8 start position c rest hopen ih =>
    obtain ⟨skipped, rfl, hskips, hposition⟩ := ih h
    refine ⟨c :: skipped, rfl, hskips.inBlock hopen, ?_⟩
    rw [hposition, List.length_cons]
    omega
  | case9 => cases h
  | case10 gap position hgap =>
    cases h
    refine ⟨[], rfl, ?_, rfl⟩
    cases gap with
    | code => exact .nil
    | lineComment => exact ⟨[], [], rfl, List.not_mem_nil, .inr rfl, .nil⟩
    | blockComment start => exact (hgap start rfl).elim

/-- A line comment is skipped up to its end. -/
theorem skip_lineComment {comment : List Char} (hcomment : '\n' ∉ comment) (position : Nat)
    (cs : List Char) :
    skip .lineComment position (comment ++ cs) =
      skip .lineComment (position + comment.length) cs := by
  induction comment generalizing position with
  | nil => rfl
  | cons c comment ih =>
    have hc : c ≠ '\n' := fun hc => hcomment (hc ▸ List.mem_cons_self)
    rw [List.cons_append, skip, if_neg hc, ih fun h => hcomment (List.mem_cons_of_mem _ h),
      List.length_cons]
    congr 1
    omega

/-- Where a line comment ends, it does not matter that there was one. -/
theorem skip_lineComment_eq_code {cs : List Char} (h : cs.head? = some '\n' ∨ cs = [])
    (position : Nat) : skip .lineComment position cs = skip .code position cs := by
  rcases h with h | rfl
  · obtain ⟨following, rfl⟩ := List.head?_eq_some_iff.1 h
    rfl
  · rfl

/-- A block comment is skipped up to the first `*/`. -/
theorem skip_blockComment {comment : List Char} (hcomment : ¬ ['*', '/'] <:+: comment ++ ['*'])
    (start position : Nat) (cs : List Char) :
    skip (.blockComment start) position (comment ++ '*' :: '/' :: cs) =
      skip .code (position + comment.length + 2) cs := by
  induction comment generalizing position with
  | nil => rfl
  | cons c comment ih =>
    obtain ⟨hopen, hcomment⟩ := not_closes_cons_iff.1 hcomment
    rw [List.cons_append, skip, ih hcomment, List.length_cons]
    · congr 1
      omega
    · exact hopen

/-- What is no slash is skipped if it is a blank. -/
theorem skip_cons {c : Char} (hslash : c ≠ '/') (position : Nat) (cs : List Char) :
    skip .code position (c :: cs) =
      if isSpace c then skip .code (position + 1) cs else (⟨position, c :: cs⟩, none) := by
  rw [skip, if_neg hslash]
  · exact fun rest h => absurd h hslash
  · exact fun rest h => absurd h hslash

/-- A text that begins with no blank and no comment. -/
def Settled (cs : List Char) : Prop :=
  ∀ c ∈ cs.head?, c ≠ '/' ∧ isSpace c = false

theorem skip_of_settled {cs : List Char} (h : Settled cs) (position : Nat) :
    skip .code position cs = (⟨position, cs⟩, none) := by
  cases cs with
  | nil => rfl
  | cons c cs =>
    obtain ⟨hslash, hspace⟩ := h c rfl
    rw [skip_cons hslash, hspace, if_neg Bool.false_ne_true]

/-- Blanks and comments are skipped without a fault. -/
theorem skip_trivia {rest gap : List Char} (hgap : Trivia rest gap) (hrest : Settled rest)
    (position : Nat) :
    skip .code position (gap ++ rest) = (⟨position + gap.length, rest⟩, none) := by
  induction hgap generalizing position with
  | nil => exact skip_of_settled hrest position
  | @blank c cs hc hcs ih =>
    have hslash : c ≠ '/' := by
      rintro rfl
      exact absurd hc (by decide)
    rw [List.cons_append, skip_cons hslash, if_pos (isSpace_iff.2 hc), ih, List.length_cons]
    congr 2
    omega
  | @lineComment comment cs hcomment hend hcs ih =>
    have hend' : (cs ++ rest).head? = some '\n' ∨ cs ++ rest = [] := by
      rcases hend with hend | hend
      · rw [List.head?_append, hend]
        exact .inl rfl
      · exact .inr hend
    rw [List.cons_append, List.cons_append, List.append_assoc, skip, skip_lineComment hcomment,
      skip_lineComment_eq_code hend', ih]
    simp only [List.length_cons, List.length_append]
    congr 2
    omega
  | @blockComment comment cs hcomment hcs ih =>
    rw [List.cons_append, List.cons_append, List.append_assoc, List.cons_append, List.cons_append,
      skip, skip_blockComment hcomment, ih]
    simp only [List.length_cons, List.length_append]
    congr 2
    omega

end Cursor

/-! ## Lexemes -/

/-- Letters, digits and underscores, of which the first is no digit. -/
def IsWord : List Char → Prop
  | [] => False
  | c :: following =>
    (c.isAlpha = true ∨ c = '_') ∧ ∀ d ∈ following, d.isAlphanum = true ∨ d = '_'

instance : DecidablePred IsWord
  | [] => .isFalse id
  | c :: following =>
    inferInstanceAs (Decidable ((c.isAlpha = true ∨ c = '_') ∧
      ∀ d ∈ following, d.isAlphanum = true ∨ d = '_'))

namespace Token.Kind

/-- The words that are no names. -/
def reserved : List String :=
  ["void", "repeat", "if", "else", "while"]

/-- Is `cs` written like a token of this kind? -/
def Shape : Kind → List Char → Prop
  | voidWord, cs => cs = "void".toList
  | repeatWord, cs => cs = "repeat".toList
  | ifWord, cs => cs = "if".toList
  | elseWord, cs => cs = "else".toList
  | whileWord, cs => cs = "while".toList
  | openingParen, cs => cs = ['(']
  | closingParen, cs => cs = [')']
  | comma, cs => cs = [',']
  | semicolon, cs => cs = [';']
  | openingBrace, cs => cs = ['\x7b']
  | closingBrace, cs => cs = ['\x7d']
  | bang, cs => cs = ['!']
  | ampersandAmpersand, cs => cs = ['&', '&']
  | barBar, cs => cs = ['|', '|']
  | number, cs => cs ≠ [] ∧ ∀ c ∈ cs, c.isDigit = true
  | identifier, cs => IsWord cs ∧ ∀ word ∈ reserved, cs ≠ word.toList
  | endOfInput, cs => cs = []

/-- May a token of this kind end in front of `c`?  Numbers and words take all that they can, and
nothing stands behind the end of the input. -/
def EndsBefore : Kind → Char → Prop
  | number, c => c.isDigit = false
  | voidWord, c | repeatWord, c | ifWord, c | elseWord, c | whileWord, c | identifier, c =>
    c.isAlphanum = false ∧ c ≠ '_'
  | endOfInput, _ => False
  | _, _ => True

theorem isWord_reserved : ∀ word ∈ reserved, IsWord word.toList := by
  simp [reserved, IsWord]

/-- Keywords have one spelling, and they end where words do. -/
theorem shape_keyword : ∀ kind ∈ keywords, kind.Shape kind.spelling.toList ∧
    ∀ c, kind.EndsBefore c ↔ c.isAlphanum = false ∧ c ≠ '_' := by
  intro kind hkind
  cases kind with
  | voidWord | repeatWord | ifWord | elseWord | whileWord => exact ⟨rfl, fun _ => .rfl⟩
  | _ => exact absurd hkind (by decide)

/-- A word is a keyword, spelt like it, or else a name. -/
theorem ofWord_cases (word : String) :
    (∃ kind ∈ keywords, ofWord word = kind ∧ word = kind.spelling) ∨
      ofWord word = identifier ∧ word ∉ reserved := by
  have hreserved : reserved = keywords.map spelling := rfl
  unfold ofWord ofKeyword?
  cases hfind : keywords.find? fun kind => kind.spelling == word with
  | none =>
    refine .inr ⟨rfl, fun hword => ?_⟩
    obtain ⟨kind, hkind, rfl⟩ := List.mem_map.1 (hreserved ▸ hword)
    exact List.find?_eq_none.1 hfind kind hkind (beq_self_eq_true _)
  | some kind =>
    have hspelling : (kind.spelling == word) = true :=
      List.find?_some (p := fun kind : Kind => kind.spelling == word) hfind
    exact .inl ⟨kind, List.mem_of_find?_eq_some hfind, rfl, (beq_iff_eq.1 hspelling).symm⟩

/-- A word has the shape of its kind, which ends where words do. -/
theorem shape_ofWord {word : List Char} (hword : IsWord word) :
    (ofWord (String.ofList word)).Shape word ∧
      ∀ c, (ofWord (String.ofList word)).EndsBefore c ↔ c.isAlphanum = false ∧ c ≠ '_' := by
  rcases ofWord_cases (String.ofList word) with ⟨kind, hkind, heq, hspelling⟩ | ⟨heq, hne⟩
  · obtain ⟨hshape, hends⟩ := shape_keyword kind hkind
    rw [← hspelling, String.toList_ofList] at hshape
    rw [heq]
    exact ⟨hshape, hends⟩
  · rw [heq]
    refine ⟨⟨hword, fun reservedWord hreserved hspelling => hne ?_⟩, fun c => .rfl⟩
    rwa [hspelling, String.ofList_toList]

end Token.Kind

namespace Cursor

theorem isWordStart_iff {c : Char} : isWordStart c = true ↔ c.isAlpha = true ∨ c = '_' := by
  rw [isWordStart, Bool.or_eq_true, beq_iff_eq]

theorem isWordPart_iff {c : Char} : isWordPart c = true ↔ c.isAlphanum = true ∨ c = '_' := by
  rw [isWordPart, Bool.or_eq_true, beq_iff_eq]

theorem isWordPart_eq_false_iff {c : Char} :
    isWordPart c = false ↔ c.isAlphanum = false ∧ c ≠ '_' := by
  rw [isWordPart, Bool.or_eq_false_iff, beq_eq_false_iff_ne]

theorem isWordPart_of_isDigit {c : Char} (h : c.isDigit = true) : isWordPart c = true := by
  grind [isWordPart, Char.isAlphanum]

theorem isWordPart_of_isWordStart {c : Char} (h : isWordStart c = true) : isWordPart c = true := by
  grind [isWordStart, isWordPart, Char.isAlphanum]

/-- Letters stand behind the digits. -/
theorem isDigit_of_isWordStart {c : Char} (h : isWordStart c = true) : c.isDigit = false := by
  rcases isWordStart_iff.1 h with h | rfl
  · rw [Bool.eq_false_iff]
    intro hdigit
    have hnine : c.val ≤ '9'.val := of_decide_eq_true (Bool.and_eq_true_iff.1 hdigit).2
    rcases Bool.or_eq_true_iff.1 h with hupper | hlower
    · have hletter : 'A'.val ≤ c.val := (of_decide_eq_true hupper).1
      exact absurd (UInt32.le_trans hletter hnine) (by decide)
    · have hletter : 'a'.val ≤ c.val := of_decide_eq_true (Bool.and_eq_true_iff.1 hlower).1
      exact absurd (UInt32.le_trans hletter hnine) (by decide)
  · decide

theorem symbol?_of_isWordPart {c : Char} (h : isWordPart c = true) : symbol? c = none := by
  unfold symbol?
  split
  case h_8 => rfl
  all_goals exact absurd h (by decide)

/-- A run of characters ends where the next one does not belong to it. -/
theorem takeWhile_append_of_ends {q : Char → Bool} {run rest : List Char}
    (hrun : ∀ c ∈ run, q c = true) (hrest : ∀ c ∈ rest.head?, q c = false) :
    (run ++ rest).takeWhile q = run := by
  rw [List.takeWhile_append_of_pos hrun]
  cases rest with
  | nil => simp
  | cons c rest => simp [hrest c rfl]

theorem head?_dropWhile {q : Char → Bool} {cs : List Char} :
    ∀ c ∈ (cs.dropWhile q).head?, q c = false := by
  intro c hc
  have hnot := List.head?_dropWhile_not q cs
  rw [Option.mem_def.1 hc] at hnot
  exact hnot

/-- What begins with a letter, a digit or an underscore is a number or a word. -/
theorem classify_of_isWordPart {c : Char} (hc : isWordPart c = true) (cs : List Char) :
    classify (c :: cs) =
      if c.isDigit then .ok (.number, (cs.takeWhile Char.isDigit).length + 1)
      else if isWordStart c then
        .ok (Kind.ofWord (String.ofList (c :: cs.takeWhile isWordPart)),
          (cs.takeWhile isWordPart).length + 1)
      else .error (.illegalCharacter c, 0) := by
  have hampersand : c ≠ '&' := by
    rintro rfl
    exact absurd hc (by decide)
  have hbar : c ≠ '|' := by
    rintro rfl
    exact absurd hc (by decide)
  rw [classify]
  · simp only [symbol?_of_isWordPart hc, if_neg hampersand, if_neg hbar, List.length_cons]
  · exact fun _ h => absurd h hampersand
  · exact fun _ h => absurd h hbar

theorem symbol?_eq_some {c : Char} {kind : Kind} (h : symbol? c = some kind) :
    kind.Shape [c] ∧ ∀ d, kind.EndsBefore d := by
  unfold symbol? at h
  split at h <;> cases h <;> exact ⟨rfl, fun _ => trivial⟩

/-- What is classified is a lexeme of its kind. -/
theorem shape_of_classify {cs : List Char} {kind : Kind} {length : Nat}
    (h : classify cs = .ok (kind, length)) :
    ∃ lexeme rest, cs = lexeme ++ rest ∧ lexeme.length = length ∧ kind.Shape lexeme ∧
      ∀ c ∈ rest.head?, kind.EndsBefore c := by
  unfold classify at h
  split at h
  · cases h
    exact ⟨[], [], rfl, rfl, rfl, nofun⟩
  next rest =>
    cases h
    exact ⟨['&', '&'], rest, rfl, rfl, rfl, fun _ _ => trivial⟩
  next rest =>
    cases h
    exact ⟨['|', '|'], rest, rfl, rfl, rfl, fun _ _ => trivial⟩
  next c cs _ _ =>
    split at h
    next kind hsymbol =>
      cases h
      obtain ⟨hshape, hends⟩ := symbol?_eq_some hsymbol
      exact ⟨[c], cs, rfl, rfl, hshape, fun d _ => hends d⟩
    · split at h
      · cases h
      · split at h
        · cases h
        · split at h
          next hdigit =>
            cases h
            refine ⟨c :: cs.takeWhile Char.isDigit, cs.dropWhile Char.isDigit, ?_, rfl,
              ⟨List.cons_ne_nil _ _, List.forall_mem_cons.2 ⟨hdigit, ?_⟩⟩, head?_dropWhile⟩
            · rw [List.cons_append, List.takeWhile_append_dropWhile]
            · exact List.all_eq_true.1 List.all_takeWhile
          · split at h
            next hstart =>
              cases h
              have hword : IsWord (c :: cs.takeWhile isWordPart) :=
                ⟨isWordStart_iff.1 hstart, fun d hd =>
                  isWordPart_iff.1 (List.all_eq_true.1 List.all_takeWhile d hd)⟩
              obtain ⟨hshape, hends⟩ := Kind.shape_ofWord hword
              refine ⟨c :: cs.takeWhile isWordPart, cs.dropWhile isWordPart, ?_, rfl, hshape,
                fun d hd => (hends d).2 (isWordPart_eq_false_iff.1 (head?_dropWhile d hd))⟩
              rw [List.cons_append, List.takeWhile_append_dropWhile]
            · cases h

/-- A word is read up to its end. -/
theorem classify_word {lexeme rest : List Char} (hword : IsWord lexeme)
    (hrest : ∀ c ∈ rest.head?, c.isAlphanum = false ∧ c ≠ '_') :
    classify (lexeme ++ rest) =
      .ok (Kind.ofWord (String.ofList lexeme), lexeme.length) := by
  match lexeme, hword with
  | c :: following, ⟨hc, hfollowing⟩ =>
    have hstart := isWordStart_iff.2 hc
    have hrun : (following ++ rest).takeWhile isWordPart = following :=
      takeWhile_append_of_ends (fun d hd => isWordPart_iff.2 (hfollowing d hd))
        fun d hd => isWordPart_eq_false_iff.2 (hrest d hd)
    rw [List.cons_append, classify_of_isWordPart (isWordPart_of_isWordStart hstart),
      isDigit_of_isWordStart hstart, if_neg Bool.false_ne_true, if_pos hstart, hrun,
      List.length_cons]

/-- A number is read up to its end. -/
theorem classify_number_append {lexeme rest : List Char} (hshape : Kind.number.Shape lexeme)
    (hrest : ∀ c ∈ rest.head?, c.isDigit = false) :
    classify (lexeme ++ rest) = .ok (.number, lexeme.length) := by
  obtain ⟨hne, hdigits⟩ := hshape
  match lexeme, hne with
  | c :: following, _ =>
    obtain ⟨hc, hfollowing⟩ := List.forall_mem_cons.1 hdigits
    rw [List.cons_append, classify_of_isWordPart (isWordPart_of_isDigit hc), if_pos hc,
      takeWhile_append_of_ends hfollowing hrest, List.length_cons]

/-- **A lexeme is classified as what it is** wherever it may end. -/
theorem classify_append {kind : Kind} {lexeme rest : List Char} (hshape : kind.Shape lexeme)
    (hrest : ∀ c ∈ rest.head?, kind.EndsBefore c) :
    classify (lexeme ++ rest) = .ok (kind, lexeme.length) := by
  cases kind with
  | number => exact classify_number_append hshape hrest
  | identifier =>
    obtain ⟨hword, hkeyword⟩ := hshape
    rw [classify_word hword hrest]
    rcases Kind.ofWord_cases (String.ofList lexeme) with ⟨kind, hkind, -, hspelling⟩ | ⟨heq, -⟩
    · refine absurd ?_ (hkeyword kind.spelling (List.mem_map_of_mem hkind))
      rw [← hspelling, String.toList_ofList]
    · rw [heq]
  | endOfInput =>
    cases hshape
    cases rest with
    | nil => rfl
    | cons c rest => exact (hrest c rfl).elim
  | voidWord | repeatWord | ifWord | elseWord | whileWord =>
    cases hshape
    rw [classify_word (Kind.isWord_reserved _ (by decide)) hrest]
    rfl
  | _ =>
    cases hshape
    rfl

/-- No token begins with a blank or a comment. -/
theorem settled_of_classify {cs : List Char} {found : Kind × Nat} (h : classify cs = .ok found) :
    Settled cs := by
  intro c hc
  obtain ⟨following, rfl⟩ := List.head?_eq_some_iff.1 hc
  have hillegal : c ∉ ['/', ' ', '\t', '\n', '\x0b', '\x0c', '\r'] := by
    intro hmem
    simp only [List.mem_cons, List.not_mem_nil, or_false] at hmem
    rcases hmem with rfl | rfl | rfl | rfl | rfl | rfl | rfl <;> cases h
  rw [List.mem_cons, ← isSpace_iff, not_or, Bool.not_eq_true] at hillegal
  exact hillegal

/-- A token with what is skipped in front of it, at the beginning of a text. -/
inductive Reads : Cursor → Token → Cursor → Prop
  | intro {position : Nat} {kind : Kind} {gap lexeme rest : List Char}
      (hgap : Trivia (lexeme ++ rest) gap) (hshape : kind.Shape lexeme)
      (hrest : ∀ c ∈ rest.head?, kind.EndsBefore c) :
      Reads ⟨position, gap ++ (lexeme ++ rest)⟩
        ⟨kind, position + gap.length, String.ofList lexeme⟩
        ⟨position + gap.length + lexeme.length, rest⟩

/-- **The next token is the one that the text begins with.** -/
theorem next_eq_ok_iff {cursor after : Cursor} {t : Token} :
    cursor.next = (.ok t, after) ↔ cursor.Reads t after := by
  constructor
  · intro h
    unfold next at h
    split at h
    · cases h
    next here hskip =>
      split at h
      · cases h
      next kind length hclassify =>
        cases h
        obtain ⟨position, cs⟩ := cursor
        obtain ⟨place, ahead⟩ := here
        obtain ⟨gap, hcs, hgap, hplace⟩ := skips_of_skip hskip
        obtain ⟨lexeme, rest, rfl, rfl, hshape, hrest⟩ := shape_of_classify hclassify
        dsimp only at hcs hplace hgap
        subst hcs hplace
        rw [List.take_left, List.drop_left]
        exact .intro hgap hshape hrest
  · rintro ⟨hgap, hshape, hrest⟩
    have hclassify := classify_append hshape hrest
    rw [next, skip_trivia hgap (settled_of_classify hclassify)]
    simp only [hclassify, List.take_left, List.drop_left]

/-- At the end of the input there is nothing but blanks and comments left, and nothing behind it. -/
theorem Reads.at_end {cursor after : Cursor} {t : Token} (h : cursor.Reads t after)
    (hkind : t.kind = .endOfInput) :
    t = Token.endOfInput (cursor.position + cursor.rest.length) ∧
      after = ⟨cursor.position + cursor.rest.length, []⟩ ∧ Trivia [] cursor.rest := by
  cases h with
  | @intro position kind gap lexeme rest hgap hshape hrest =>
    cases hkind
    cases hshape
    cases rest with
    | nil =>
      rw [List.append_nil] at hgap
      rw [List.append_nil, List.append_nil]
      exact ⟨rfl, rfl, hgap⟩
    | cons c rest => exact (hrest c rfl).elim

end Cursor

/-! ## Whole texts -/

/-- The text at a cursor is spelt by a list of tokens: one after the other, with blanks and comments
in front of each, and at last the end of the input behind blanks and comments. -/
inductive Spelt : Cursor → List Token → Prop
  | last {position : Nat} {gap : List Char} (hgap : Trivia [] gap) :
      Spelt ⟨position, gap⟩ [Token.endOfInput (position + gap.length)]
  | token {cursor after : Cursor} {t : Token} {ts : List Token} (h : cursor.Reads t after)
      (hkind : t.kind ≠ .endOfInput) (hts : Spelt after ts) : Spelt cursor (t :: ts)

namespace Scan

theorem toList_cons (t : Token) (scan : Scan) :
    (⟨t :: scan.tokens, scan.ending⟩ : Scan).toList = scan.toList.map (t :: ·) := by
  obtain ⟨tokens, ending⟩ := scan
  cases ending <;> rfl

theorem ofCursor_of_next {cursor after : Cursor} {t : Token} (h : cursor.next = (.ok t, after)) :
    ofCursor cursor =
      if t.kind = .endOfInput then ⟨[], .endOfInput t.position⟩
      else ⟨t :: (ofCursor after).tokens, (ofCursor after).ending⟩ := by
  rw [ofCursor]
  split
  next hnext => rw [h] at hnext; cases hnext
  next hnext =>
    rw [h] at hnext
    cases hnext
    rfl

/-- What is read at the end of the input is all that is left. -/
theorem spelt_of_reads {cursor after : Cursor} {t : Token} (h : cursor.Reads t after)
    (hkind : t.kind = .endOfInput) : Spelt cursor [Token.endOfInput t.position] := by
  obtain ⟨rfl, -, hgap⟩ := h.at_end hkind
  exact .last hgap

/-- The tokens of a text spell it. -/
theorem spelt_of_toList (cursor : Cursor) :
    ∀ tokens, (ofCursor cursor).toList = .ok tokens → Spelt cursor tokens := by
  fun_induction ofCursor cursor with
  | case1 => exact nofun
  | case2 cursor t after hnext hkind =>
    rintro _ ⟨⟩
    exact spelt_of_reads (Cursor.next_eq_ok_iff.1 hnext) hkind
  | case3 cursor t after hnext hkind following ih =>
    intro tokens h
    rw [toList_cons] at h
    cases hfollowing : following.toList with
    | error d =>
      rw [hfollowing] at h
      cases h
    | ok ts =>
      rw [hfollowing] at h
      cases h
      exact .token (Cursor.next_eq_ok_iff.1 hnext) hkind (ih ts hfollowing)

/-- What spells a text are its tokens. -/
theorem toList_of_spelt {cursor : Cursor} {tokens : List Token} (h : Spelt cursor tokens) :
    (ofCursor cursor).toList = .ok tokens := by
  induction h with
  | @last position gap hgap =>
    have hreads : Cursor.Reads ⟨position, gap ++ ([] ++ [])⟩
        (Token.endOfInput (position + gap.length)) ⟨position + gap.length, []⟩ :=
      .intro hgap rfl nofun
    rw [List.append_nil, List.append_nil] at hreads
    rw [ofCursor_of_next (Cursor.next_eq_ok_iff.2 hreads)]
    rfl
  | @token cursor after t ts hreads hkind hts ih =>
    rw [ofCursor_of_next (Cursor.next_eq_ok_iff.2 hreads), if_neg hkind, toList_cons, ih]
    rfl

end Scan

/-- **The tokens of a text are exactly those that spell it.** -/
theorem tokens_iff_spelt (source : String) (tokens : List Token) :
    (Scan.ofText source).toList = .ok tokens ↔ Spelt (.ofText source) tokens :=
  ⟨Scan.spelt_of_toList _ _, Scan.toList_of_spelt⟩

end KarelRobot
