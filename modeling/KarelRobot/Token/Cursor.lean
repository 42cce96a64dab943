import KarelRobot.Diagnostic

/-!
# Reading tokens

A `Cursor` stands in a source text and hands out one token after the other.  Blanks and comments
are skipped before each token; at the end of the input it hands out that end again and again.  What
cannot be read leaves the cursor in front of the offending character, so that the same fault is
found again, except that an unclosed comment swallows the rest of the input.

* `Cursor.skip` — the blanks and comments in front of a token.
* `Cursor.classify` — the kind and length of the token that a text begins with.
* `Cursor.next` — the next token, or what is wrong with it, and the cursor behind it.
* `Scan.ofCursor` — all tokens of a text, up to its end or to the first fault.
-/

set_option autoImplicit false
namespace KarelRobot

open Token (Kind)

/-- A place in a source text: a position and the characters from there on. -/
structure Cursor where
  position : Nat
  rest : List Char
deriving Repr, DecidableEq

namespace Cursor

/-- The cursor at the beginning of a text. -/
def ofText (source : String) : Cursor :=
  ⟨0, source.toList⟩

/-! ## Blanks and comments -/

/-- Is `c` a blank of the language? -/
def isSpace (c : Char) : Bool :=
  c == ' ' || c == '\t' || c == '\n' || c == '\x0b' || c == '\x0c' || c == '\r'

/-- What a character between two tokens belongs to. -/
inductive Gap where
  /-- Outside of comments. -/
  | code
  /-- In a comment that the end of the line ends. -/
  | lineComment
  /-- In a comment that `*/` ends and that was opened at `start`. -/
  | blockComment (start : Nat)
deriving Repr, DecidableEq

/-- Skips the blanks and comments at `position`, and reports a comment that is not one. -/
def skip (gap : Gap) (position : Nat) (cs : List Char) : Cursor × Option Diagnostic :=
  match gap, cs with
  | .code, '/' :: '/' :: rest => skip .lineComment (position + 2) rest
  | .code, '/' :: '*' :: rest => skip (.blockComment position) (position + 2) rest
  | .code, c :: rest =>
    if c = '/' then (⟨position, c :: rest⟩, some ⟨position + 1, .loneSlash, none⟩)
    else if isSpace c then skip .code (position + 1) rest
    else (⟨position, c :: rest⟩, none)
  | .lineComment, c :: rest =>
    skip (if c = '\n' then .code else .lineComment) (position + 1) rest
  | .blockComment _, '*' :: '/' :: rest => skip .code (position + 2) rest
  | .blockComment start, _ :: rest => skip (.blockComment start) (position + 1) rest
  | .blockComment start, [] => (⟨position, []⟩, some ⟨start, .unclosedComment, none⟩)
  | _, [] => (⟨position, []⟩, none)

/-! ## Tokens -/

/-- May a word begin with `c`? -/
def isWordStart (c : Char) : Bool :=
  c.isAlpha || c == '_'

/-- May a word go on with `c`? -/
def isWordPart (c : Char) : Bool :=
  c.isAlphanum || c == '_'

/-- The tokens of one character. -/
def symbol? : Char → Option Kind
  | '(' => some .openingParen
  | ')' => some .closingParen
  | ',' => some .comma
  | ';' => some .semicolon
  | '\x7b' => some .openingBrace
  | '\x7d' => some .closingBrace
  | '!' => some .bang
  | _ => none

/-- The kind and the length of the token that a text begins with, or what is wrong there and how
many characters further on.  The empty text is the end of the input. -/
def classify : List Char → Except (Problem × Nat) (Kind × Nat)
  | [] => .ok (.endOfInput, 0)
  | '&' :: '&' :: _ => .ok (.ampersandAmpersand, 2)
  | '|' :: '|' :: _ => .ok (.barBar, 2)
  | c :: cs =>
    match symbol? c with
    | some kind => .ok (kind, 1)
    | none =>
      if c = '&' then .error (.loneAmpersand, 1)
      else if c = '|' then .error (.loneBar, 1)
      else if c.isDigit then .ok (.number, (cs.takeWhile Char.isDigit).length + 1)
      else if isWordStart c then
        let word := c :: cs.takeWhile isWordPart
        .ok (Kind.ofWord (String.ofList word), word.length)
      else .error (.illegalCharacter c, 0)

/-- The next token, or what is wrong with it, and where to go on reading. -/
def next (cursor : Cursor) : Except Diagnostic Token × Cursor :=
  match skip .code cursor.position cursor.rest with
  | (here, some fault) => (.error fault, here)
  | (here, none) =>
    match classify here.rest with
    | .error (problem, offset) => (.error ⟨here.position + offset, problem, none⟩, here)
    | .ok (kind, length) =>
      (.ok ⟨kind, here.position, String.ofList (here.rest.take length)⟩,
        ⟨here.position + length, here.rest.drop length⟩)

/-! ## Progress -/

theorem skip_length_le (gap : Gap) (position : Nat) (cs : List Char) :
    (skip gap position cs).1.rest.length ≤ cs.length := by
  fun_induction skip gap position cs <;> simp_all <;> omega

theorem classify_pos {cs : List Char} {kind : Kind} {length : Nat}
    (h : classify cs = .ok (kind, length)) (hkind : kind ≠ .endOfInput) :
    0 < length ∧ 0 < cs.length := by
  unfold classify at h
  grind

/-- A token other than the end of the input takes at least one character. -/
theorem next_length_lt {cursor after : Cursor} {t : Token} (h : cursor.next = (.ok t, after))
    (ht : t.kind ≠ .endOfInput) : after.rest.length < cursor.rest.length := by
  have hskip := skip_length_le .code cursor.position cursor.rest
  unfold next at h
  split at h
  · simp at h
  next here hhere =>
    split at h
    · simp at h
    next kind length hclassify =>
      simp only [Prod.mk.injEq, Except.ok.injEq] at h
      obtain ⟨rfl, rfl⟩ := h
      have := classify_pos hclassify ht
      simp only [hhere] at hskip
      simp only [List.length_drop]
      omega

end Cursor

/-! ## Whole texts -/

/-- What follows the last token of a text. -/
inductive Ending where
  /-- Nothing: the text ends at `position`. -/
  | endOfInput (position : Nat)
  /-- Characters that are no token. -/
  | fault (d : Diagnostic)
deriving Repr, DecidableEq

/-- The tokens of a text up to its end or to the first fault. -/
structure Scan where
  tokens : List Token
  ending : Ending
deriving Repr, DecidableEq

namespace Scan

/-- The tokens from a cursor on. -/
def ofCursor (cursor : Cursor) : Scan :=
  match _h : cursor.next with
  | (.error fault, _) => ⟨[], .fault fault⟩
  | (.ok t, after) =>
    if _hkind : t.kind = .endOfInput then ⟨[], .endOfInput t.position⟩
    else
      let following := ofCursor after
      ⟨t :: following.tokens, following.ending⟩
termination_by cursor.rest.length
decreasing_by exact Cursor.next_length_lt _h _hkind

/-- The tokens of a text. -/
def ofText (source : String) : Scan :=
  ofCursor (Cursor.ofText source)

/-- All tokens with the end of the input behind them, unless there is a fault. -/
def toList (scan : Scan) : Except Diagnostic (List Token) :=
  match scan.ending with
  | .endOfInput position => .ok (scan.tokens ++ [Token.endOfInput position])
  | .fault d => .error d

end Scan
end KarelRobot
