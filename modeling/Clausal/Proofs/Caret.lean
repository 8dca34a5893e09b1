import Clausal.Proofs.Excerpt

/-!
# The mark below a line

An excerpt quotes a line behind its number and a bar. The row below it has a bar of its own, then
blanks, and then the mark. There are as many blanks as the mark needs to come below its column from
the edge, but the row does not begin with them: the bar pushes the mark further to the right.

* `Diagnostic.exists_rows`: the last rows of an excerpt, as they are between the line feeds of the
  whole text.
* `Diagnostic.mark_is_five_columns_off`: the offset of the mark, in every excerpt.
-/

namespace Clausal

namespace Text

theorem notMem_of_mem_pieces {cs piece : List Char} (h : piece ∈ pieces cs) : '\n' ∉ piece := by
  induction cs generalizing piece with
  | nil =>
    cases List.mem_singleton.mp h
    exact List.not_mem_nil
  | cons c cs ih =>
    by_cases hc : c = '\n'
    · subst hc
      rcases List.mem_cons.mp h with rfl | h
      · exact List.not_mem_nil
      · exact ih h
    · obtain ⟨first, others, hcut⟩ := List.exists_cons_of_ne_nil (pieces_ne_nil cs)
      rw [pieces_cons hc, hcut, List.modifyHead_cons] at h
      rw [hcut] at ih
      rcases List.mem_cons.mp h with rfl | h
      · rw [List.mem_cons, not_or]
        exact ⟨Ne.symm hc, ih List.mem_cons_self⟩
      · exact ih (List.mem_cons_of_mem _ h)

theorem mem_of_mem_dropReturn {c : Char} {piece : List Char} (h : c ∈ dropReturn piece) :
    c ∈ piece := by
  rcases eq_dropReturn piece with hkept | hdropped
  · rwa [hkept]
  · rw [hdropped]
    exact List.mem_append_left _ h

/-- A line is taken from a piece. -/
theorem exists_piece_of_mem_lines {text line : String} (h : line ∈ lines text) :
    ∃ piece ∈ pieces text.toList, line.toList ⊆ piece := by
  unfold lines at h
  obtain ⟨chars, hchars, rfl⟩ := List.mem_map.mp h
  rw [String.toList_ofList]
  have hended : chars ∈ (pieces text.toList).dropLast.map dropReturn →
      ∃ piece ∈ pieces text.toList, chars ⊆ piece := by
    intro hmem
    obtain ⟨piece, hpiece, rfl⟩ := List.mem_map.mp hmem
    exact ⟨piece, List.dropLast_subset _ hpiece, fun c => mem_of_mem_dropReturn⟩
  split at hchars
  · exact hended hchars
  · rcases List.mem_append.mp hchars with hmem | hmem
    · exact hended hmem
    · obtain rfl := List.mem_singleton.mp hmem
      have hlast := List.getLast?_eq_some_getLast (pieces_ne_nil text.toList)
      rw [hlast]
      exact ⟨_, List.getLast_mem _, List.Subset.refl _⟩

/-- There is no line feed in a line. -/
theorem notMem_of_mem_lines {text line : String} (h : line ∈ lines text) :
    '\n' ∉ line.toList := by
  obtain ⟨piece, hpiece, hsub⟩ := exists_piece_of_mem_lines h
  exact fun hfeed => notMem_of_mem_pieces hpiece (hsub hfeed)

theorem toList_inThreeColumns (n : Nat) :
    (inThreeColumns n).toList =
      List.replicate (3 - (toString n).length) ' ' ++ Nat.toDigits 10 n := by
  simp [inThreeColumns]

theorem length_toString (n : Nat) : (toString n).length = (Nat.toDigits 10 n).length := by
  rw [Nat.toString_eq_ofList_toDigits, String.length_ofList]

end Text

namespace Diagnostic

/-- What stands left of a line that is quoted. -/
def gutter (number : Nat) : List Char :=
  ' ' :: (Text.inThreeColumns number).toList ++ " | ".toList

/-- The row of the mark. -/
def underline (column : Nat) : List Char :=
  [' ', ' ', ' ', '|', ' '] ++ List.replicate (column - 1 + 7) ' ' ++ ['^']

theorem length_gutter (number : Nat) :
    (gutter number).length = max 3 (toString number).length + 4 := by
  have hbar : " | ".toList.length = 3 := rfl
  rw [gutter, Text.toList_inThreeColumns, Text.length_toString]
  simp only [List.cons_append, List.length_cons, List.length_append, List.length_replicate, hbar]
  omega

theorem notMem_gutter (number : Nat) : '\n' ∉ gutter number := by
  have hdigits : '\n' ∉ Nat.toDigits 10 number := fun h =>
    absurd (Nat.isDigit_of_mem_toDigits (by decide) (by decide) h) (by decide)
  rw [gutter, Text.toList_inThreeColumns]
  simp [hdigits]

theorem notMem_underline (column : Nat) : '\n' ∉ underline column := by
  simp [underline]

theorem idxOf_underline (column : Nat) : (underline column).idxOf '^' = column - 1 + 12 := by
  have hmark : '^' ∉ [' ', ' ', ' ', '|', ' '] ++ List.replicate (column - 1 + 7) ' ' := by
    simp
  rw [underline, List.idxOf_append_of_notMem hmark]
  simp

theorem toList_row (number : Nat) (line : String) :
    (row .plain number line).toList = gutter number ++ line.toList ++ ['\n'] := by
  simp [row, gutter]

theorem toList_markRow (column : Nat) :
    (markRow .plain column).toList = underline column ++ ['\n'] := by
  simp [markRow, underline, bar]

/-- What an excerpt has above the row of its line consists of whole rows. -/
theorem exists_feed (number : Nat) (quoted : Option String) :
    ∃ cs, (bar .plain ++ "\n" ++ (quoted.map (rowAbove .plain number)).getD "").toList =
      cs ++ ['\n'] := by
  cases quoted with
  | none => exact ⟨(bar .plain).toList, by simp⟩
  | some line =>
    refine ⟨(bar .plain ++ "\n" ++ " " ++ Text.inThreeColumns number ++ " | " ++ line).toList, ?_⟩
    simp [rowAbove]

/-- Without colors, the last rows of an excerpt are that of the line, that of the mark and a bar. -/
theorem exists_rows (shown : String) (p : Position) (quoted : Option String) {line : String}
    (hline : '\n' ∉ line.toList) :
    ∃ front, Text.pieces (shown ++ quoting .plain p quoted line).toList =
      front ++ [gutter p.line ++ line.toList, underline p.column, "   |".toList, []] := by
  obtain ⟨cs, hcs⟩ := exists_feed (p.line - 1) quoted
  have hrow : '\n' ∉ gutter p.line ++ line.toList := by
    rw [List.mem_append, not_or]
    exact ⟨notMem_gutter _, hline⟩
  have hall : (shown ++ quoting .plain p quoted line).toList =
      (shown.toList ++ cs) ++ '\n' :: ((gutter p.line ++ line.toList) ++ '\n' ::
        (underline p.column ++ '\n' :: ("   |".toList ++ '\n' :: []))) := by
    rw [quoting]
    simp only [String.toList_append, toList_row, toList_markRow] at hcs ⊢
    rw [hcs]
    simp [bar]
  refine ⟨Text.pieces (shown.toList ++ cs), ?_⟩
  rw [hall, Text.pieces_append, Text.pieces_append, Text.pieces_append, Text.pieces_append,
    Text.pieces_of_notMem hrow, Text.pieces_of_notMem (notMem_underline _)]
  rfl

/-- An excerpt is shown only of a line that the text has. -/
theorem exists_line_of_shown {painter : Painter} {e : Error} {text : String}
    (h : render painter e (some text) ≠ render painter e none) :
    ∃ p n line, e.position = some p ∧ p.line = n + 1 ∧ (Text.lines text)[n]? = some line := by
  cases hp : e.position with
  | none =>
    refine absurd ?_ h
    unfold render
    rw [hp]
  | some p =>
    rw [render_some painter hp] at h
    cases hline : p.line with
    | zero =>
      refine absurd ?_ h
      unfold excerpt
      rw [hline, String.append_empty]
    | succ n =>
      cases hget : (Text.lines text)[n]? with
      | none => exact absurd (by rw [excerpt_eq_empty painter hline hget, String.append_empty]) h
      | some line => exact ⟨p, n, line, rfl, hline, hget⟩

/-- Wherever an excerpt is shown, the line begins behind a margin that grows with its number, and
the mark stands at the offset of its column and twelve more. Up to line 999 the margin takes up
seven of them, and the mark is five too far to the right. -/
theorem mark_is_five_columns_off {e : Error} {text : String}
    (h : render .plain e (some text) ≠ render .plain e none) :
    ∃ p line front margin under,
      e.position = some p ∧ 0 < p.line ∧ (Text.lines text)[p.line - 1]? = some line ∧
      Text.pieces (render .plain e (some text)).toList =
        front ++ [margin ++ line.toList, under, "   |".toList, []] ∧
      '^' ∈ under ∧ under.idxOf '^' = p.column - 1 + 12 ∧
      margin.length = max 3 (toString p.line).length + 4 ∧
      (p.line < 1000 → under.idxOf '^' = margin.length + (p.column - 1) + 5) := by
  obtain ⟨p, n, line, hp, hn, hline⟩ := exists_line_of_shown h
  obtain ⟨front, hrows⟩ := exists_rows (render .plain e none) p
    (if n = 0 then none else some ((Text.lines text)[n - 1]?.getD ""))
    (Text.notMem_of_mem_lines (List.mem_of_getElem? hline))
  rw [← excerpt_eq_quoting .plain hn hline, ← render_some .plain hp] at hrows
  refine ⟨p, line, front, gutter p.line, underline p.column, hp, by omega, ?_, hrows, ?_,
    idxOf_underline _, length_gutter _, fun hsmall => ?_⟩
  · rwa [hn, Nat.add_sub_cancel]
  · simp [underline]
  · have hdigits : (toString p.line).length ≤ 3 := by
      rw [Text.length_toString]
      exact (Nat.length_toDigits_le_iff (by decide) (by decide)).mpr hsmall
    rw [idxOf_underline, length_gutter]
    omega

/-- The parenthesis behind the sum stands at offset nine, the mark below it at fourteen. -/
theorem mark_is_five_columns_off_brokenSum :
    let e : Error := .found ⟨none, 3, 3⟩ (.unexpected .expression (.mark .rightParen))
    ∃ front quoted under, Text.pieces (render .plain e (some brokenSum.text)).toList =
        front ++ [quoted, under, "   |".toList, []] ∧
      quoted[9]? = some ')' ∧ under.idxOf '^' = 14 := by
  intro e
  have hshown : render .plain e (some brokenSum.text) ≠ render .plain e none := by decide +kernel
  obtain ⟨p, line, front, margin, under, hp, -, hline, hrows, -, hmark, -, hoff⟩ :=
    mark_is_five_columns_off hshown
  obtain rfl : ⟨none, 3, 3⟩ = p := Option.some.inj hp
  have hthird : (Text.lines brokenSum.text)[2]? = some "  ) = 2" := by decide +kernel
  obtain rfl : line = "  ) = 2" := Option.some.inj (hline.symm.trans hthird)
  have hmargin : margin.length = 7 := by
    have hoffset := (hoff (by decide)).symm.trans hmark
    omega
  refine ⟨front, _, under, hrows, ?_, hmark⟩
  rw [List.getElem?_append_right (by omega), hmargin]
  decide

/-- A `b` is in the fifth column of the line, at offset eleven of its row. The mark is at offset
sixteen. -/
theorem mark_misses_column :
    let e : Error := .found ⟨some "main.xy", 2, 5⟩ (.reported .grammar "Unexpected symbol")
    render .plain e (some "let a() = 1\nlet b(x = 2\n") =
        "Syntax error: Unexpected symbol\n" ++
        "  --> main.xy:2:5\n" ++
        "   |\n" ++
        "   1 | let a() = 1\n" ++
        "   2 | let b(x = 2\n" ++
        "   |            ^\n" ++
        "   |\n" ∧
      "let b(x = 2".toList[5 - 1]? = some 'b' ∧
      "   2 | let b(x = 2".toList.idxOf 'b' = 11 ∧ "   |            ^".toList.idxOf '^' = 16 := by
  decide +kernel

end Diagnostic

end Clausal
