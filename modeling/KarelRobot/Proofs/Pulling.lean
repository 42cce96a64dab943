import KarelRobot.Proofs.Lexemes
import KarelRobot.Proofs.Positions

/-!
# Pulling tokens past the end and past a fault

A cursor can be asked for the next token any number of times.  It hands out the tokens of its text,
and what follows is settled by where it stands then: at the end of the text it stays there, and in
front of a character that nothing begins with it finds the same fault each time.  Only a comment
that is never closed is found once; it takes the rest of the text with it.

* `Cursor.pulls`, `Cursor.after` — the results of some calls, and the cursor behind them.
* `Cursor.skip_again` — what has been skipped is not skipped again, unless a comment is left open.
* `Sequel` — what is handed out behind the tokens.
* `pulling_settles` — any number of calls give the tokens and then the one sequel of the text.
-/

set_option autoImplicit false
namespace KarelRobot

open Token (Kind)

/-! ## Calls -/

namespace Cursor

/-- The results of some calls, one after the other. -/
def pulls : Nat → Cursor → List (Except Diagnostic Token)
  | 0, _ => []
  | n + 1, cursor => cursor.next.1 :: pulls n cursor.next.2

/-- Where a cursor stands after some calls. -/
def after : Nat → Cursor → Cursor
  | 0, cursor => cursor
  | n + 1, cursor => after n cursor.next.2

theorem after_succ (n : Nat) (cursor : Cursor) :
    after (n + 1) cursor = (after n cursor).next.2 := by
  induction n generalizing cursor with
  | zero => rfl
  | succ n ih => exact ih cursor.next.2

/-- A cursor that a call leaves where it is gives the same result again and again. -/
theorem pulls_of_fixed {cursor : Cursor} {result : Except Diagnostic Token}
    (h : cursor.next = (result, cursor)) (n : Nat) :
    cursor.pulls n = List.replicate n result := by
  induction n with
  | zero => rfl
  | succ n ih => rw [pulls, h, ih, List.replicate_succ]

/-! ## What is skipped is skipped for good -/

/-- From the inside of a gap at `position` on, the comment opened at `start` is never closed: it is
the one that the gap is in, or it comes behind blanks and comments. -/
def Gap.LeavesOpen (start position : Nat) (gap : Gap) (cs : List Char) : Prop :=
  (gap = .blockComment start ∧ ¬ ['*', '/'] <:+: cs) ∨
    ∃ skipped comment, cs = skipped ++ '/' :: '*' :: comment ∧
      gap.Skips ('/' :: '*' :: comment) skipped ∧ ¬ ['*', '/'] <:+: comment ∧
      start = position + skipped.length

/-- The rest of the text is skipped, because a comment is never closed. -/
def Gap.Swallows (position : Nat) (gap : Gap) (cs : List Char) : Prop :=
  ∃ start, skip gap position cs =
      (⟨position + cs.length, []⟩, some ⟨start, .unclosedComment, none⟩) ∧
    gap.LeavesOpen start position cs

/-- A comment that is left open behind some skipped characters is left open in front of them. -/
theorem Gap.Swallows.step {gap gap' : Gap} {position : Nat} (front : List Char) {cs : List Char}
    (hskip : skip gap position (front ++ cs) = skip gap' (position + front.length) cs)
    (hopen : ∀ start, gap' = .blockComment start → ¬ ['*', '/'] <:+: cs →
      gap.LeavesOpen start position (front ++ cs))
    (hskips : ∀ skipped rest, cs = skipped ++ rest → gap'.Skips rest skipped →
      gap.Skips rest (front ++ skipped))
    (h : gap'.Swallows (position + front.length) cs) : gap.Swallows position (front ++ cs) := by
  obtain ⟨start, hstart, hleaves⟩ := h
  refine ⟨start, ?_, ?_⟩
  · rw [hskip, hstart, List.length_append, Nat.add_assoc]
  · rcases hleaves with ⟨hgap, hcs⟩ | ⟨skipped, comment, hcs, hskipped, hcomment, hposition⟩
    · exact hopen start hgap hcs
    · refine .inr ⟨front ++ skipped, comment, ?_, hskips _ _ hcs hskipped, hcomment, ?_⟩
      · rw [hcs, List.append_assoc]
      · rw [hposition, List.length_append, Nat.add_assoc]

/-- **What has been skipped is not skipped again**, and a fault that was found is found again,
unless a comment has swallowed the rest of the text. -/
theorem skip_again (gap : Gap) (position : Nat) (cs : List Char) :
    skip .code (skip gap position cs).1.position (skip gap position cs).1.rest =
        skip gap position cs ∨
      gap.Swallows position cs := by
  -- the first half is about the result, which a step does not change; the second has to be carried
  -- back over the characters of each step
  fun_induction skip gap position cs with
  | case1 position rest ih =>
    exact ih.imp id (Gap.Swallows.step ['/', '/'] rfl (fun _ hstart => by cases hstart)
      fun _ _ _ h => h.lineComment)
  | case2 position rest ih =>
    refine ih.imp id (Gap.Swallows.step ['/', '*'] rfl (fun start hstart hrest => ?_)
      fun _ _ _ h => h.blockComment)
    -- this is the comment that is left open
    cases hstart
    exact .inr ⟨[], rest, rfl, .nil, hrest, rfl⟩
  | case3 position rest hline hblock =>
    left
    rw [skip, if_pos rfl]
    · exact hline
    · exact hblock
  | case4 position c rest _ _ hslash hspace ih =>
    have hskip : skip .code position ([c] ++ rest) = skip .code (position + 1) rest := by
      rw [List.singleton_append, skip_cons hslash, if_pos hspace]
    exact ih.imp id (Gap.Swallows.step [c] hskip (fun _ hstart => by cases hstart)
      fun _ _ _ h => h.blank hspace)
  | case5 position c rest _ _ hslash hspace =>
    exact .inl (by rw [skip_cons hslash, if_neg hspace])
  | case6 position c rest ih =>
    refine ih.imp id (Gap.Swallows.step [c] rfl (fun start hstart => ?_)
      fun _ _ _ h => h.inLine)
    split at hstart <;> cases hstart
  | case7 start position rest ih =>
    exact ih.imp id (Gap.Swallows.step ['*', '/'] rfl (fun _ hstart => by cases hstart)
      fun _ _ _ h => h.close)
  | case8 start position c rest hopen ih =>
    refine ih.imp id (Gap.Swallows.step [c] ?_ (fun start' hstart hrest => ?_)
      fun skipped rest' hrest h => h.inBlock (hrest ▸ hopen))
    · rw [List.singleton_append, skip]
      · rfl
      · exact hopen
    · refine .inl ⟨hstart, fun hcloses => ?_⟩
      rcases closes_cons_iff.1 hcloses with ⟨following, hc, hfollowing⟩ | hcloses
      · exact hopen following hc hfollowing
      · exact hrest hcloses
  | case9 position start => exact .inr ⟨start, rfl, .inl ⟨rfl, by decide⟩⟩
  | case10 gap position hgap => exact .inl rfl

/-! ## The next call -/

/-- Behind blanks and comments a comment is opened at `start` and never closed. -/
def OpensComment (start : Nat) (cursor : Cursor) : Prop :=
  ∃ gap comment, cursor.rest = gap ++ '/' :: '*' :: comment ∧
    Trivia ('/' :: '*' :: comment) gap ∧ ¬ ['*', '/'] <:+: comment ∧
    start = cursor.position + gap.length

/-- **A fault is found again at once**, unless it is a comment that has swallowed the text. -/
theorem next_fault {cursor here : Cursor} {d : Diagnostic} (h : cursor.next = (.error d, here)) :
    here.next = (.error d, here) ∨
      ∃ start, d = ⟨start, .unclosedComment, none⟩ ∧
        here = ⟨cursor.position + cursor.rest.length, []⟩ ∧ cursor.OpensComment start := by
  have hagain := skip_again .code cursor.position cursor.rest
  unfold next at h
  split at h
  next place fault hskip =>
    cases h
    rw [hskip] at hagain
    rcases hagain with hagain | ⟨start, hstart, hleaves⟩
    · exact .inl (by rw [next, hagain])
    · rw [hskip] at hstart
      cases hstart
      rcases hleaves with ⟨⟨⟩, -⟩ | hopens
      exact .inr ⟨start, rfl, rfl, hopens⟩
  next place hskip =>
    split at h
    next problem offset hclassify =>
      cases h
      rw [hskip] at hagain
      rcases hagain with hagain | ⟨start, hstart, -⟩
      · exact .inl (by simp only [next, hagain, hclassify])
      · rw [hskip] at hstart
        cases hstart
    · cases h

/-- A cursor at the end of its text stays there. -/
theorem next_nil (position : Nat) :
    (⟨position, []⟩ : Cursor).next = (.ok (Token.endOfInput position), ⟨position, []⟩) :=
  rfl

/-- A call leaves the cursor in its text, and not before where it was. -/
theorem next_moves (cursor : Cursor) :
    cursor.position ≤ cursor.next.2.position ∧
      cursor.next.2.position + cursor.next.2.rest.length =
        cursor.position + cursor.rest.length := by
  have hle := le_skip_position .code cursor.position cursor.rest
  have hspan := (skip_within .code cursor.position cursor.rest trivial rfl).1
  unfold next
  split
  next here fault hskip =>
    rw [hskip] at hle hspan
    exact ⟨hle, hspan⟩
  next here hskip =>
    rw [hskip] at hle hspan
    split
    · exact ⟨hle, hspan⟩
    next kind length hclassify =>
      have hlength := classify_ok_le hclassify
      dsimp only at hle hspan ⊢
      rw [List.length_drop]
      omega

theorem after_span (n : Nat) (cursor : Cursor) :
    (cursor.after n).position + (cursor.after n).rest.length =
      cursor.position + cursor.rest.length := by
  induction n generalizing cursor with
  | zero => rfl
  | succ n ih => exact (ih cursor.next.2).trans (next_moves cursor).2

end Cursor

/-! ## What follows the tokens -/

/-- What a cursor hands out behind the tokens of its text. -/
inductive Sequel where
  /-- The end of the input, again and again. -/
  | ended
  /-- A fault, again and again. -/
  | stuck (d : Diagnostic)
  /-- Once that the comment opened at `start` is never closed, and then the end of the input. -/
  | unclosed (start : Nat)

namespace Sequel

/-- The diagnostic of a comment that was opened at `start`. -/
abbrev openedAt (start : Nat) : Diagnostic :=
  ⟨start, .unclosedComment, none⟩

/-- The results of some calls behind the tokens of a text of `length` characters. -/
def results (length : Nat) : Sequel → Nat → List (Except Diagnostic Token)
  | ended, n => List.replicate n (.ok (Token.endOfInput length))
  | stuck d, n => List.replicate n (.error d)
  | unclosed _, 0 => []
  | unclosed start, n + 1 =>
    .error (openedAt start) :: List.replicate n (.ok (Token.endOfInput length))

/-- All tokens of a text of `length` characters with the end of the input behind them, or the
fault. -/
def tokenized (length : Nat) (tokens : List Token) : Sequel → Except Diagnostic (List Token)
  | ended => .ok (tokens ++ [Token.endOfInput length])
  | stuck d => .error d
  | unclosed start => .error (openedAt start)

variable {length : Nat}

theorem results_zero (sequel : Sequel) : sequel.results length 0 = [] := by
  cases sequel <;> rfl

/-- There are no more tokens behind the tokens. -/
theorem ok_not_mem_results (sequel : Sequel) {t : Token} (ht : t.kind ≠ .endOfInput) (n : Nat) :
    .ok t ∉ sequel.results length n := by
  have hend : t ≠ Token.endOfInput length := fun h => ht (h ▸ rfl)
  cases sequel with
  | ended => simp [results, List.mem_replicate, hend]
  | stuck d => simp [results, List.mem_replicate]
  | unclosed start => cases n <;> simp [results, List.mem_replicate, hend]

/-- Two calls tell the sequels apart. -/
theorem eq_of_results_two {a b : Sequel} (h : a.results length 2 = b.results length 2) : a = b := by
  cases a <;> cases b <;> simp_all [results, List.replicate]

theorem tokenized_cons (t : Token) (tokens : List Token) (sequel : Sequel) :
    sequel.tokenized length (t :: tokens) = (sequel.tokenized length tokens).map (t :: ·) := by
  cases sequel <;> rfl

end Sequel

/-- A cursor hands out these tokens and then this sequel, however often it is called. -/
structure Cursor.Course (length : Nat) (cursor : Cursor) (tokens : List Token) (sequel : Sequel) :
    Prop where
  kinds : ∀ t ∈ tokens, t.kind ≠ .endOfInput
  increasing : tokens.Pairwise fun t u => t.position < u.position
  pulls : ∀ n, cursor.pulls n =
    (tokens.take n).map .ok ++ sequel.results length (n - tokens.length)
  tokenized : (Scan.ofCursor cursor).toList = sequel.tokenized length tokens
  opened : ∀ start, sequel = .unclosed start → (cursor.after tokens.length).OpensComment start

namespace Cursor

variable {length : Nat}

/-- The calls of a cursor that finds a fault. -/
theorem exists_sequel_of_fault {cursor here : Cursor} {d : Diagnostic}
    (hlength : cursor.position + cursor.rest.length = length)
    (h : cursor.next = (.error d, here)) :
    ∃ sequel : Sequel, (∀ n, cursor.pulls n = sequel.results length n) ∧
      sequel.tokenized length [] = .error d ∧
      ∀ start, sequel = .unclosed start → cursor.OpensComment start := by
  rcases next_fault h with hagain | ⟨start, rfl, rfl, hopens⟩
  · refine ⟨.stuck d, fun n => ?_, rfl, fun _ hstart => by cases hstart⟩
    cases n with
    | zero => rfl
    | succ n => rw [pulls, h, pulls_of_fixed hagain]; rfl
  · refine ⟨.unclosed start, fun n => ?_, rfl, fun _ hstart => ?_⟩
    · cases n with
      | zero => rfl
      | succ n => rw [pulls, h, pulls_of_fixed (next_nil _), hlength]; rfl
    · cases hstart
      exact hopens

/-- The calls of a cursor behind the last token. -/
theorem pulls_of_end {cursor behind : Cursor} {t : Token}
    (hlength : cursor.position + cursor.rest.length = length)
    (h : cursor.next = (.ok t, behind)) (hkind : t.kind = .endOfInput) (n : Nat) :
    cursor.pulls n = Sequel.ended.results length n := by
  obtain ⟨rfl, rfl, -⟩ := (next_eq_ok_iff.1 h).at_end hkind
  cases n with
  | zero => rfl
  | succ n => rw [pulls, h, pulls_of_fixed (next_nil _), hlength]; rfl

/-- The calls of a cursor hand out its tokens and then a sequel. -/
theorem exists_sequel (cursor : Cursor) (hlength : cursor.position + cursor.rest.length = length) :
    ∃ sequel : Sequel,
      (∀ n, cursor.pulls n = ((Scan.ofCursor cursor).tokens.take n).map .ok ++
        sequel.results length (n - (Scan.ofCursor cursor).tokens.length)) ∧
      (Scan.ofCursor cursor).toList = sequel.tokenized length (Scan.ofCursor cursor).tokens ∧
      ∀ start, sequel = .unclosed start →
        (cursor.after (Scan.ofCursor cursor).tokens.length).OpensComment start := by
  fun_induction Scan.ofCursor cursor with
  | case1 cursor d here h =>
    obtain ⟨sequel, hpulls, htokenized, hopened⟩ := exists_sequel_of_fault hlength h
    refine ⟨sequel, fun n => ?_, htokenized.symm, hopened⟩
    rw [hpulls, List.take_nil]
    rfl
  | case2 cursor t behind h hkind =>
    refine ⟨.ended, fun n => ?_, ?_, fun _ hstart => by cases hstart⟩
    · rw [pulls_of_end hlength h hkind, List.take_nil]
      rfl
    · obtain ⟨rfl, -⟩ := (next_eq_ok_iff.1 h).at_end hkind
      rw [← hlength]
      rfl
  | case3 cursor t behind h hkind following ih =>
    have hspan := (next_moves cursor).2
    rw [h] at hspan
    obtain ⟨sequel, hpulls, htokenized, hopened⟩ := ih (hspan.trans hlength)
    refine ⟨sequel, fun n => ?_, ?_, fun start hstart => ?_⟩
    · cases n with
      | zero => rw [Nat.zero_sub, Sequel.results_zero]; rfl
      | succ n =>
        rw [pulls, h, hpulls, List.take_succ_cons, List.length_cons, Nat.succ_sub_succ]
        rfl
    · rw [Scan.toList_cons, htokenized, Sequel.tokenized_cons]
    · rw [List.length_cons, after, h]
      exact hopened start hstart

theorem exists_course (cursor : Cursor) (hlength : cursor.position + cursor.rest.length = length) :
    ∃ tokens sequel, cursor.Course length tokens sequel := by
  obtain ⟨sequel, hpulls, htokenized, hopened⟩ := exists_sequel cursor hlength
  exact ⟨_, sequel, fun t ht => (Scan.proper cursor t ht).kind, (Scan.ofCursor_position cursor).1,
    hpulls, htokenized, hopened⟩

namespace Course

variable {cursor : Cursor} {ts us : List Token} {a b : Sequel}

/-- A sequel does not begin before the tokens are all handed out. -/
theorem length_le (h : cursor.Course length ts a) (h' : cursor.Course length us b) :
    ts.length ≤ us.length := by
  by_contra hlt
  rw [Nat.not_le] at hlt
  -- the first result that only one of the two takes for a token
  have hpulls := (h.pulls (us.length + 1)).symm.trans (h'.pulls (us.length + 1))
  rw [Nat.sub_eq_zero_of_le hlt, Sequel.results_zero, List.append_nil,
    List.take_succ_eq_append_getElem hlt, List.map_append, List.take_of_length_le (Nat.le_succ _),
    Nat.add_sub_cancel_left] at hpulls
  have hlast := List.append_inj_right hpulls (by simp [Nat.le_of_lt hlt])
  have hmem : .ok ts[us.length] ∈ b.results length 1 := by
    rw [← hlast]
    exact List.mem_singleton_self _
  exact b.ok_not_mem_results (h.kinds _ (List.getElem_mem hlt)) 1 hmem

/-- The results of the calls leave no doubt about what is a token and what follows. -/
theorem unique (h : cursor.Course length ts a) (h' : cursor.Course length us b) :
    ts = us ∧ a = b := by
  have hlengths : ts.length = us.length := Nat.le_antisymm (h.length_le h') (h'.length_le h)
  have hpulls := (h.pulls (ts.length + 2)).symm.trans (h'.pulls (ts.length + 2))
  rw [List.take_of_length_le (by omega), List.take_of_length_le (by omega), ← hlengths,
    Nat.add_sub_cancel_left] at hpulls
  obtain ⟨htokens, hresults⟩ := List.append_inj hpulls (by simpa using hlengths)
  exact ⟨List.map_injective_iff.2 (fun _ _ => Except.ok.inj) htokens,
    Sequel.eq_of_results_two hresults⟩

end Course
end Cursor

/-- **However often a text is asked for its next token, the answers are settled.**  They are tokens
at increasing positions, and then the one sequel of the text: its end for ever, one fault for ever,
or once a comment that is never closed and then its end for ever; and reading all tokens at once
gives the same.  Meanwhile the cursor never goes back, and never leaves the text. -/
theorem pulling_settles (source : String) :
    (∃ tokens sequel, (Cursor.ofText source).Course source.length tokens sequel ∧
      ∀ tokens' sequel', (Cursor.ofText source).Course source.length tokens' sequel' →
        tokens' = tokens ∧ sequel' = sequel) ∧
    ∀ n, ((Cursor.ofText source).after n).position ≤
        ((Cursor.ofText source).after (n + 1)).position ∧
      ((Cursor.ofText source).after n).position ≤ source.length := by
  have hlength : (Cursor.ofText source).position + (Cursor.ofText source).rest.length =
      source.length := by
    rw [Cursor.ofText, Nat.zero_add, String.length_toList]
  obtain ⟨tokens, sequel, hcourse⟩ := Cursor.exists_course (Cursor.ofText source) hlength
  refine ⟨⟨tokens, sequel, hcourse, fun _ _ hother => hother.unique hcourse⟩, fun n => ⟨?_, ?_⟩⟩
  · rw [Cursor.after_succ]
    exact (Cursor.next_moves _).1
  · have hspan := Cursor.after_span n (Cursor.ofText source)
    omega

/-- The comment is found once, and then the end of the input. -/
example : (Cursor.ofText "a /*").pulls 4 =
    [.ok ⟨.identifier, 0, "a"⟩, .error ⟨2, .unclosedComment, none⟩,
      .ok (Token.endOfInput 4), .ok (Token.endOfInput 4)] := by
  rfl

end KarelRobot
