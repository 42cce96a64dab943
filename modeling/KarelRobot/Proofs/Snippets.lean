import KarelRobot.Console.Report
import KarelRobot.Proofs.Lines

/-!
# Marks below a source line

A report shows the line of the source that it is about and carets below it.  The line number and its
frame are as wide as the blanks that stand for them in front of the carets, so the first caret is in
the column of the place, and that column holds the character at the position of the report.

* `Console.Report.PointsAt` — a report shows a line with its first caret exactly below a character.
* `Console.Report.snippet_of_line` — the four lines that show a line of the source.
* `caret_marks_position` — where the caret stands, in which order places come, and when there is no
  line to show.
-/

set_option autoImplicit false
namespace KarelRobot
namespace Console
namespace Report

variable {report : Report} {source line : String} {place : Text.Place}

/-- The report shows this line of the source and carets below it, the first one exactly below the
character `c` that has `index` characters of the line in front of it.  Colours take up no
columns. -/
def PointsAt (report : Report) (source line : String) (index : Nat) (c : Char) : Prop :=
  ∃ margin marker : String, ∃ carets : Nat,
    report.snippet source (Text.place source report.position) =
      ["     |", paint .brightBlack margin ++ line, paint .red marker ++ paint .red " error here",
        "     |"] ∧
    marker.toList = List.replicate (margin.length + index) ' ' ++ List.replicate (carets + 1) '^' ∧
    (margin ++ line).toList[margin.length + index]? = some c

/-- The carets stand behind blanks for the margin and for the columns in front of the place. -/
theorem snippet_of_line (report : Report)
    (h : (Text.lines source)[place.line - 1]? = some line) :
    ∃ margin marker : String, ∃ carets : Nat,
      report.snippet source place =
        ["     |", paint .brightBlack margin ++ line, paint .red marker ++ paint .red " error here",
          "     |"] ∧
      marker.toList = List.replicate (margin.length + (place.column - 1)) ' ' ++
        List.replicate (carets + 1) '^' := by
  obtain ⟨carets, hcarets⟩ : ∃ carets, max (report.highlight.getD 1) 1 = carets + 1 :=
    ⟨max (report.highlight.getD 1) 1 - 1, by omega⟩
  rw [snippet, h]
  exact ⟨_, _, carets, rfl, by rw [String.toList_ofList, hcarets]⟩

/-- **The first caret stands below the character in the column of the place.** -/
theorem pointsAt_of_line {c : Char}
    (h : (Text.lines source)[(Text.place source report.position).line - 1]? = some line)
    (hc : line.toList[(Text.place source report.position).column - 1]? = some c) :
    report.PointsAt source line ((Text.place source report.position).column - 1) c := by
  obtain ⟨margin, marker, carets, hsnippet, hmarker⟩ := snippet_of_line report h
  refine ⟨margin, marker, carets, hsnippet, hmarker, ?_⟩
  rw [String.toList_append, ← String.length_toList, List.getElem?_append_right (by omega),
    Nat.add_sub_cancel_left, hc]

theorem snippet_eq_nil_iff :
    report.snippet source place = [] ↔ (Text.lines source)[place.line - 1]? = none := by
  rw [snippet]
  split <;> simp_all

end Report
end Console

open Console (Report)

/-- The line that a report shows. -/
theorem Text.getElem?_lines (source : String) (position : Nat) :
    (lines source)[(place source position).line - 1]? =
      (lineOf? source.toList position).map String.ofList := by
  rw [lines, List.getElem?_map, place_eq, lineOf?]

/-- **The caret marks the right character.**  If the character at the position of a report is not
part of the end of a line, the report shows the line of its place.  That line is the piece of the
source that begins `column - 1` characters in front of the position, so the character stands in the
column of the place, and the first caret stands exactly below it.  Later positions have later
places.  And no line is shown just if the position is at the end, or behind it, of a source that is
empty or ends in a line feed. -/
theorem caret_marks_position (report : Report) (source : String) :
    (∀ c, source.toList[report.position]? = some c → c ≠ '\n' →
      ¬ (c = '\r' ∧ source.toList[report.position + 1]? = some '\n') →
      ∃ before line behind, source = before ++ line ++ behind ∧
        before.length + ((Text.place source report.position).column - 1) = report.position ∧
        (Text.lines source)[(Text.place source report.position).line - 1]? = some line ∧
        line.toList[(Text.place source report.position).column - 1]? = some c ∧
        report.PointsAt source line ((Text.place source report.position).column - 1) c) ∧
    (∀ p q, p < q → q ≤ source.length →
      (Text.place source p).Precedes (Text.place source q)) ∧
    (report.snippet source (Text.place source report.position) = [] ↔
      source.length ≤ report.position ∧ (source = "" ∨ source.toList.getLast? = some '\n')) := by
  refine ⟨fun c hc hlineFeed hreturn => ?_, fun p q hpq hq => ?_, ?_⟩
  · obtain ⟨before, line, behind, hsource, hline, hlength, hcolumn⟩ :=
      Text.exists_line_of_getElem? hc hlineFeed hreturn
    have hpieces : source = String.ofList before ++ String.ofList line ++ String.ofList behind := by
      rw [← String.ofList_append, ← String.ofList_append, ← hsource, String.ofList_toList]
    have hshown : (Text.lines source)[(Text.place source report.position).line - 1]? =
        some (String.ofList line) := by
      rw [Text.getElem?_lines, hline, Option.map_some]
    have hchar : (String.ofList line).toList[(Text.place source report.position).column - 1]? =
        some c := by
      rw [String.toList_ofList]
      exact hcolumn
    rw [← String.length_ofList] at hlength
    exact ⟨_, _, _, hpieces, hlength, hshown, hchar, Report.pointsAt_of_line hshown hchar⟩
  · rw [← String.length_toList] at hq
    exact Text.placeIn_precedes hpq hq
  · rw [Report.snippet_eq_nil_iff, Text.getElem?_lines, Option.map_eq_none_iff,
      Text.lineOf?_eq_none_iff, String.length_toList, String.toList_eq_nil_iff]

/-- Two lines that end in different ways, and a line feed behind them.  The second line has the same
letter twice. -/
def ragged : String :=
  "ab\r\n\tdcd\n"

/-- A letter in the second line is marked there, and not the same letter in front of it; behind the
last line there is nothing to mark. -/
theorem caret_marks_position_ragged :
    (Text.lines ragged)[1]? = some "\tdcd" ∧
      Report.PointsAt ⟨"Compile error", 7, "missing ;", some 2⟩ ragged "\tdcd" 3 'd' ∧
      (Text.place ragged 2).Precedes (Text.place ragged 4) ∧
      Report.snippet ⟨"Compile error", 9, "missing ;", none⟩ ragged (Text.place ragged 9) = [] := by
  have hlines : (Text.lines ragged)[1]? = some "\tdcd" := by decide +kernel
  have hplace : Text.place ragged 7 = ⟨2, 4⟩ := by decide +kernel
  obtain ⟨hmarks, hprecedes, -⟩ :=
    caret_marks_position ⟨"Compile error", 7, "missing ;", some 2⟩ ragged
  obtain ⟨before, line, behind, -, -, hline, -, hpoints⟩ :=
    hmarks 'd' (by decide +kernel) (by decide) (by decide)
  rw [hplace] at hline hpoints
  have hsame : line = "\tdcd" := Option.some.inj (hline.symm.trans hlines)
  refine ⟨hlines, hsame ▸ hpoints, hprecedes 2 4 (by decide) (by decide +kernel), ?_⟩
  exact (caret_marks_position ⟨"Compile error", 9, "missing ;", none⟩ ragged).2.2.2
    (by decide +kernel)

end KarelRobot
