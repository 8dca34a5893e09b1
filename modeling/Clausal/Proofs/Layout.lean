import Clausal.Proofs.Lexeme

/-!
# Layout

A token depends on its own characters only. What follows a token decides where it ends, so it may be
replaced by anything that ends the token as well: by a break, or by itself with a break behind it
(`Scan.Replaces`). Every scanner then finds the same (`Scan.kind_replaces`).

* `Trivia`, `Ending`: blanks and comments, and what may stand at the end of a source.
* `Laid`: a source as trivia and the characters of its tokens in turn.
* `SetApart`: runs of characters laid out with trivia between any two neighbours.
* `Token.layout_is_free`: a source that can be read is laid out in this way, and every other layout
  of the characters of its tokens is read as tokens of the same kinds.
-/

namespace Clausal

namespace Scan

/-! ## What follows a token -/

/-- What can stand behind a token in the place of `rest`: a break, or `rest` with a break at its
end. -/
inductive Replaces (rest : List Char) : List Char → Prop
  | breaks {other : List Char} (h : Breaks other) : Replaces rest other
  | append {tail : List Char} (h : Breaks tail) : Replaces rest (rest ++ tail)

section

variable {rest other : List Char} {c : Char}

/-- A first character that makes no break was there before. -/
theorem Replaces.head (h : Replaces rest other) (hother : other.head? = some c)
    (hblank : Text.isBlank c = false) (hcomment : c ≠ ';') : rest.head? = some c := by
  have hsolid {cs : List Char} (hcs : Breaks cs) : cs.head? ≠ some c := by
    intro hhead
    rcases hcs c hhead with hc | hc
    · rw [hblank] at hc
      cases hc
    · exact hcomment hc
  cases h with
  | breaks hbreaks => exact absurd hother (hsolid hbreaks)
  | append htail =>
    cases rest with
    | nil => exact absurd hother (hsolid htail)
    | cons d rest => exact hother

theorem Replaces.stops (h : Replaces rest other) (hrest : Stops rest) : Stops other := by
  intro c hc
  cases hname : isNameChar c with
  | false => rfl
  | true =>
    obtain ⟨hblank, hcomment⟩ := isNameChar_solid hname
    rw [← hname]
    exact hrest c (h.head hc hblank hcomment)

/-! ## Numbers -/

/-- A point here is the start of a fraction: no second one follows it. -/
def opensFraction : List Char → Bool
  | '.' :: '.' :: _ => false
  | '.' :: _ => true
  | _ => false

theorem opensFraction_cons {cs : List Char} (h : opensFraction cs = true) :
    ∃ ds, cs = '.' :: ds ∧ ds.head? ≠ some '.' := by
  unfold opensFraction at h
  split at h
  · cases h
  · next ds hds =>
    refine ⟨ds, rfl, fun hhead => ?_⟩
    obtain ⟨es, rfl⟩ := List.head?_eq_some_iff.mp hhead
    exact hds es rfl
  · cases h

theorem opensFraction_point {cs : List Char} (h : cs.head? ≠ some '.') :
    opensFraction ('.' :: cs) = true := by
  unfold opensFraction
  split
  · next heq =>
    cases heq
    exact absurd rfl h
  · rfl
  · next hnot => exact absurd rfl (hnot cs)

theorem point_eq (base : Nat) (whole : Float) (c : Cursor) :
    point base whole c =
      if opensFraction c.rest then
        if base = 10 then fraction whole (c.past ['.'] c.rest.tail)
        else (.error ⟨c.place, .fractionBase⟩, c.past ['.'] c.rest.tail)
      else (.ok whole, c) := by
  unfold point
  split
  · next heq => simp [heq, opensFraction]
  · next cs hcs heq =>
    have hopens : opensFraction ('.' :: cs) = true := by
      refine opensFraction_point fun hhead => ?_
      obtain ⟨es, rfl⟩ := List.head?_eq_some_iff.mp hhead
      exact hcs es rfl
    rw [heq, hopens]
    rfl
  · next hpoint =>
    cases hopens : opensFraction c.rest with
    | false => rfl
    | true =>
      obtain ⟨ds, hds, -⟩ := opensFraction_cons hopens
      exact absurd hds (hpoint ds)

/-- Two points stay two points. -/
theorem Replaces.opensFraction (h : Replaces rest other) (hrest : opensFraction rest = false) :
    Scan.opensFraction other = false := by
  cases hother : Scan.opensFraction other with
  | false => rfl
  | true =>
    obtain ⟨ds, rfl, hds⟩ := opensFraction_cons hother
    obtain ⟨es, rfl⟩ := List.head?_eq_some_iff.mp (h.head rfl (by decide) (by decide))
    cases h with
    | breaks hbreaks => exact absurd rfl (hbreaks.ne (d := '.') (by decide) (by decide))
    | append =>
      rw [← hrest, opensFraction_point]
      cases es with
      | nil => simp
      | cons e es => exact hds

/-- What stands after the whole part of a number is read alike. -/
theorem point_replaces {base : Nat} {whole x : Float} {cs : List Char} {p q : Place}
    (hcs : Fraction base whole cs x) (h : point base whole ⟨cs ++ rest, p⟩ = (.ok x, ⟨rest, q⟩))
    (hstops : Stops rest) (hrest : Replaces rest other) (p' : Place) :
    ∃ q', point base whole ⟨cs ++ other, p'⟩ = (.ok x, ⟨other, q'⟩) := by
  rw [point_eq] at h
  cases hcs with
  | none =>
    -- otherwise the point would have been read
    have hopens : opensFraction rest = false := by
      cases hopens : opensFraction rest with
      | false => rfl
      | true =>
        obtain ⟨ds, rfl, -⟩ := opensFraction_cons hopens
        rw [List.nil_append, if_pos hopens] at h
        split at h
        · have hless := (fraction_reaches whole (Cursor.past ⟨'.' :: ds, p⟩ ['.'] ds)).length_le
          rw [List.tail_cons] at h
          rw [h] at hless
          exact absurd hless (by simp [Cursor.past])
        · cases h
    refine ⟨p', ?_⟩
    rw [point_eq, List.nil_append, if_neg (by rw [hrest.opensFraction hopens]; decide)]
  | @some frac hbase hfrac =>
    have hopens : opensFraction ('.' :: frac ++ rest) = true := by
      cases hopens : opensFraction ('.' :: frac ++ rest) with
      | true => rfl
      | false =>
        rw [if_neg (by rw [hopens]; decide)] at h
        have hlength := congrArg (·.2.rest.length) h
        simp only [List.length_append, List.length_cons] at hlength
        omega
    obtain ⟨ds, heq, hds⟩ := opensFraction_cons hopens
    cases heq
    have hother : (frac ++ other).head? ≠ some '.' := by
      cases frac with
      | nil => exact fun hhead => hds (hrest.head hhead (by decide) (by decide))
      | cons d frac => exact hds
    refine ⟨(p'.after '.').afterAll frac, ?_⟩
    rw [point_eq, List.cons_append, if_pos (opensFraction_point hother), if_pos hbase]
    simp only [fraction, Cursor.past, List.tail_cons, Place.afterAll_cons, Place.afterAll_nil,
      digits_append hfrac (hrest.stops hstops)]

/-- The value of a number does not depend on what follows it. -/
theorem number_replaces {cs : List Char} {x : Float} {p q : Place} (hcs : cs ≠ [])
    (h : number ⟨cs ++ rest, p⟩ = (.ok x, ⟨rest, q⟩)) (hrest : Replaces rest other) (p' : Place) :
    ∃ q', number ⟨cs ++ other, p'⟩ = (.ok x, ⟨other, q'⟩) := by
  obtain ⟨whole, mid, hwhole, hpoint⟩ := number_eq_ok_iff.mp h
  obtain ⟨run, htail, hrun, hmid, hvalue⟩ := exists_digits hwhole
  obtain ⟨frac, hmid', hfrac, hstops⟩ := exists_fraction hpoint hmid
  dsimp only at hmid' hstops
  obtain ⟨start, hbase⟩ := announcedBase_append hcs hstops p
  obtain ⟨start', hbase'⟩ := announcedBase_append hcs (hrest.stops hstops) p'
  rw [hbase] at htail hrun hfrac hvalue hpoint
  obtain ⟨mid, place⟩ := mid
  dsimp only at hmid' htail hrun hfrac hvalue hpoint
  subst hmid'
  rw [← List.append_assoc] at htail
  have htaken := List.append_cancel_right htail
  obtain ⟨q', hq'⟩ := point_replaces hfrac hpoint hstops hrest (start'.afterAll run)
  refine ⟨q', number_eq_ok_iff.mpr ⟨whole, ⟨frac ++ other, start'.afterAll run⟩, ?_, ?_⟩⟩
  · rw [hbase', htaken, List.append_assoc, hvalue]
    exact digits_append hrun (hfrac.stops_append (hrest.stops hstops)) _ _
  · rw [hbase']
    exact hq'

end

/-! ## Texts, words and marks -/

/-- A text ends at its quote, whatever follows. -/
theorem exists_textContent {acc cs : List Char} {p : Place} {content : String} {stop : Cursor}
    (h : textContent acc cs p = (some content, stop)) :
    ∃ taken, cs = taken ++ stop.rest ∧ ∀ other p', ∃ q',
      textContent acc (taken ++ other) p' = (some content, ⟨other, q'⟩) := by
  fun_induction textContent acc cs p with
  | case1 => cases h
  | case2 acc cs p =>
    cases h
    exact ⟨['"'], rfl, fun other p' => ⟨_, rfl⟩⟩
  | case3 => cases h
  | case4 acc c cs p ih =>
    obtain ⟨taken, rfl, htaken⟩ := ih h
    refine ⟨'\\' :: c :: taken, rfl, fun other p' => ?_⟩
    obtain ⟨q', hq'⟩ := htaken other ((p'.after '\\').after c)
    exact ⟨q', hq'⟩
  | case5 acc c cs p hquote hlast hescape ih =>
    obtain ⟨taken, rfl, htaken⟩ := ih h
    have hslash : c ≠ '\\' := by
      rintro rfl
      cases hcs : taken ++ stop.rest with
      | nil => exact hlast rfl hcs
      | cons d ds => exact hescape d ds rfl hcs
    refine ⟨c :: taken, rfl, fun other p' => ?_⟩
    obtain ⟨q', hq'⟩ := htaken other (p'.after c)
    refine ⟨q', ?_⟩
    rw [List.cons_append, textContent]
    · exact hq'
    · exact hquote
    · exact fun hc _ => hslash hc
    · exact fun _ _ hc _ => hslash hc

section

variable {rest other : List Char} {c : Char} {k : Token.Kind} {p q : Place}

theorem text_replaces {cs : List Char} (h : kind ⟨'"' :: (cs ++ rest), p⟩ = (.ok k, ⟨rest, q⟩))
    (p' : Place) : ∃ q', kind ⟨'"' :: (cs ++ other), p'⟩ = (.ok k, ⟨other, q'⟩) := by
  have hdigit : '"'.isDigit = false := by decide
  simp only [kind, hdigit, Bool.false_eq_true, if_false, if_true, text] at h ⊢
  cases hcontent : textContent [] (cs ++ rest) (p.after '"') with
  | mk found stop =>
    rw [hcontent] at h
    cases found with
    | none => cases h
    | some content =>
      cases h
      obtain ⟨taken, htaken, hother⟩ := exists_textContent hcontent
      obtain rfl : taken = cs := (List.append_cancel_right htaken).symm
      obtain ⟨q', hq'⟩ := hother other (p'.after '"')
      exact ⟨q', by rw [hq']⟩

theorem word_replaces {cs : List Char} (hdigit : c.isDigit = false) (hname : isNameChar c = true)
    (h : kind ⟨c :: cs ++ rest, p⟩ = (.ok k, ⟨rest, q⟩)) (hrest : Replaces rest other)
    (p' : Place) : ∃ q', kind ⟨c :: cs ++ other, p'⟩ = (.ok k, ⟨other, q'⟩) := by
  have hquote : c ≠ '"' := by
    rintro rfl
    exact absurd hname (by decide)
  have hword : (word ⟨c :: cs ++ rest, p⟩).2 = ⟨rest, q⟩ := by
    simp only [kind, List.cons_append, hdigit, hquote, hname, if_true, if_false,
      Bool.false_eq_true] at h
    exact (Prod.mk.inj h).2
  -- the word is the run of name characters, and what follows is not one of them
  have hdrop : (c :: cs ++ rest).dropWhile isNameChar = rest := congrArg Cursor.rest hword
  have htake : (c :: cs ++ rest).takeWhile isNameChar = c :: cs := by
    have hboth := List.takeWhile_append_dropWhile (p := isNameChar) (l := c :: cs ++ rest)
    rw [hdrop] at hboth
    exact List.append_cancel_right hboth
  have hall : ∀ d ∈ c :: cs, isNameChar d = true := by
    rw [← htake]
    exact List.all_eq_true.mp List.all_takeWhile
  have hstops : Stops rest := by
    intro d hd
    rw [← hdrop] at hd
    have hnot := List.head?_dropWhile_not isNameChar (c :: cs ++ rest)
    rw [hd] at hnot
    simpa using hnot
  rw [kind_word ⟨c, cs, rfl, hdigit⟩ hall hstops] at h
  rw [kind_word ⟨c, cs, rfl, hdigit⟩ hall (hrest.stops hstops)]
  exact ⟨_, by rw [(Prod.mk.inj h).1]⟩

theorem mark_single (start : Cursor) (h : ∀ d ∈ rest.head?, Mark.ofPair? c d = none) :
    mark start c rest = (single c, start.past [c] rest) := by
  cases rest with
  | nil => rfl
  | cons d rest => simp only [mark, h d rfl]

theorem ofPair?_replaces (hrest : Replaces rest other)
    (h : ∀ d ∈ rest.head?, Mark.ofPair? c d = none) :
    ∀ d ∈ other.head?, Mark.ofPair? c d = none := by
  intro d hd
  by_cases hsolid : Text.isBlank d = false ∧ d ≠ ';'
  · exact h d (hrest.head hd hsolid.1 hsolid.2)
  · refine @ofPair?_of_breaks c d [] fun e he => ?_
    cases he
    rwa [Decidable.not_and_iff_or_not, Bool.not_eq_false, Decidable.not_not] at hsolid

theorem mark_replaces {cs : List Char} (hdigit : c.isDigit = false) (hquote : c ≠ '"')
    (hname : isNameChar c = false) (h : kind ⟨c :: cs ++ rest, p⟩ = (.ok k, ⟨rest, q⟩))
    (hrest : Replaces rest other) (p' : Place) :
    ∃ q', kind ⟨c :: cs ++ other, p'⟩ = (.ok k, ⟨other, q'⟩) := by
  simp only [kind, List.cons_append, hdigit, hquote, hname, if_false, Bool.false_eq_true] at h ⊢
  cases cs with
  | nil =>
    rw [List.nil_append] at h ⊢
    have hpair : ∀ d ∈ rest.head?, Mark.ofPair? c d = none := by
      intro d hd
      obtain ⟨ds, rfl⟩ := List.head?_eq_some_iff.mp hd
      cases hpair : Mark.ofPair? c d with
      | none => rfl
      | some m =>
        have hlength := congrArg (·.2.rest.length) h
        simp [mark, hpair, Cursor.past] at hlength
    rw [mark_single _ hpair] at h
    rw [mark_single _ (ofPair?_replaces hrest hpair)]
    exact ⟨_, by rw [(Prod.mk.inj h).1]; rfl⟩
  | cons d cs =>
    have hlength := congrArg (·.2.rest.length) h
    cases hpair : Mark.ofPair? c d with
    | none =>
      simp [mark, hpair, Cursor.past] at hlength
      omega
    | some m =>
      have hnil : cs = [] := by simpa [mark, hpair, Cursor.past] using hlength
      subst hnil
      simp only [mark, hpair, List.cons_append, List.nil_append] at h ⊢
      exact ⟨_, by rw [(Prod.mk.inj h).1]; rfl⟩

/-- A token is read from its characters alike whatever ends it. -/
theorem kind_replaces {cs : List Char} (hcs : cs ≠ [])
    (h : kind ⟨cs ++ rest, p⟩ = (.ok k, ⟨rest, q⟩)) (hrest : Replaces rest other) (p' : Place) :
    ∃ q', kind ⟨cs ++ other, p'⟩ = (.ok k, ⟨other, q'⟩) := by
  obtain ⟨c, cs, rfl⟩ := List.exists_cons_of_ne_nil hcs
  cases hdigit : c.isDigit with
  | true =>
    simp only [kind, List.cons_append, hdigit, if_true] at h ⊢
    cases hnumber : number ⟨c :: (cs ++ rest), p⟩ with
    | mk found stop =>
      rw [hnumber] at h
      cases found with
      | error fault => cases h
      | ok x =>
        cases h
        obtain ⟨q', hq'⟩ := number_replaces hcs hnumber hrest p'
        rw [List.cons_append] at hq'
        exact ⟨q', by rw [hq']⟩
  | false =>
    by_cases hquote : c = '"'
    · subst hquote
      exact text_replaces h p'
    cases hname : isNameChar c with
    | true => exact word_replaces hdigit hname h hrest p'
    | false => exact mark_replaces hdigit hquote hname h hrest p'

end

end Scan

/-! ## Trivia -/

/-- Blanks, and comments closed by the end of their line. -/
inductive Trivia : List Char → Prop
  | nil : Trivia []
  | blank {c : Char} {cs : List Char} (hc : Text.isBlank c = true) (h : Trivia cs) :
    Trivia (c :: cs)
  | comment {body cs : List Char} (hbody : '\n' ∉ body) (h : Trivia cs) :
    Trivia (';' :: (body ++ '\n' :: cs))

/-- What may stand behind the last token: trivia, of which the end of the source may close the last
comment. -/
inductive Ending : List Char → Prop
  | trivia {cs : List Char} (h : Trivia cs) : Ending cs
  | comment {cs body : List Char} (h : Trivia cs) (hbody : '\n' ∉ body) :
    Ending (cs ++ ';' :: body)

/-- The characters of a token start with no blank and no comment. -/
def Solid (cs : List Char) : Prop := ∃ c ds, cs = c :: ds ∧ Text.isBlank c = false ∧ c ≠ ';'

section

variable {cs : List Char}

theorem Solid.ne_nil (h : Solid cs) : cs ≠ [] := by
  obtain ⟨c, ds, rfl, -⟩ := h
  exact List.cons_ne_nil c ds

theorem Trivia.breaks (h : Trivia cs) : Scan.Breaks cs := by
  intro c hc
  cases h with
  | nil => cases hc
  | blank hblank =>
    cases hc
    exact .inl hblank
  | comment =>
    cases hc
    exact .inr rfl

theorem Trivia.breaks_append (h : Trivia cs) (hcs : cs ≠ []) (rest : List Char) :
    Scan.Breaks (cs ++ rest) := by
  obtain ⟨c, ds, rfl⟩ := List.exists_cons_of_ne_nil hcs
  exact h.breaks

theorem Trivia.append {ds : List Char} (hcs : Trivia cs) (hds : Trivia ds) : Trivia (cs ++ ds) := by
  induction hcs with
  | nil => exact hds
  | blank hc _ ih => exact .blank hc ih
  | comment hbody _ ih =>
    rw [List.cons_append, List.append_assoc]
    exact .comment hbody ih

/-- The end of a line makes trivia of an ending. -/
theorem Ending.line (h : Ending cs) : Trivia (cs ++ ['\n']) := by
  cases h with
  | trivia h => exact h.append (.blank (by decide) .nil)
  | comment h hbody =>
    rw [List.append_assoc]
    exact h.append (.comment hbody .nil)

theorem Ending.breaks (h : Ending cs) : Scan.Breaks cs := by
  cases h with
  | trivia h => exact h.breaks
  | @comment cs body h =>
    cases cs with
    | nil =>
      intro c hc
      cases hc
      exact .inr rfl
    | cons c ds => exact h.breaks

theorem Ending.blank {c : Char} (hc : Text.isBlank c = true) (h : Ending cs) :
    Ending (c :: cs) := by
  cases h with
  | trivia h => exact .trivia (.blank hc h)
  | comment h hbody => exact .comment (.blank hc h) hbody

theorem Ending.closed {body : List Char} (hbody : '\n' ∉ body) (h : Ending cs) :
    Ending (';' :: (body ++ '\n' :: cs)) := by
  cases h with
  | trivia h => exact .trivia (.comment hbody h)
  | @comment cs last h hlast =>
    have hall := Ending.comment (Trivia.comment hbody h) hlast
    rw [List.cons_append, List.append_assoc] at hall
    exact hall

end

namespace Scan

/-- A comment is skipped up to the end of its line. -/
theorem trivia_body {body : List Char} (hbody : '\n' ∉ body) (rest : List Char) (p : Place) :
    trivia true (body ++ rest) p = trivia true rest (p.afterAll body) := by
  induction body generalizing p with
  | nil => rfl
  | cons c body ih =>
    rw [List.mem_cons, not_or] at hbody
    have hc : (c != '\n') = true := bne_iff_ne.mpr (Ne.symm hbody.1)
    rw [List.cons_append, trivia, if_pos rfl, hc, ih hbody.2, Place.afterAll_cons]

theorem skipTrivia_comment (rest : List Char) (p : Place) :
    skipTrivia ⟨';' :: rest, p⟩ = trivia true rest (p.after ';') := rfl

theorem skipTrivia_blank {c : Char} (hc : Text.isBlank c = true) (rest : List Char) (p : Place) :
    skipTrivia ⟨c :: rest, p⟩ = skipTrivia ⟨rest, p.after c⟩ := by
  simp only [skipTrivia, trivia, hc, Bool.false_eq_true, if_false, if_true]

theorem skipTrivia_of_solid {cs : List Char} (h : Solid cs) (rest : List Char) (p : Place) :
    skipTrivia ⟨cs ++ rest, p⟩ = ⟨cs ++ rest, p⟩ := by
  obtain ⟨c, ds, rfl, hblank, hcomment⟩ := h
  simp [skipTrivia, trivia, hblank, hcomment]

/-- Trivia is skipped. -/
theorem skipTrivia_append {t : List Char} (h : Trivia t) (rest : List Char) (p : Place) :
    skipTrivia ⟨t ++ rest, p⟩ = skipTrivia ⟨rest, p.afterAll t⟩ := by
  induction h generalizing p with
  | nil => rfl
  | blank hc _ ih => rw [List.cons_append, skipTrivia_blank hc, ih, Place.afterAll_cons]
  | @comment body cs hbody _ ih =>
    rw [List.cons_append, skipTrivia_comment, List.append_assoc, trivia_body hbody,
      Place.afterAll_cons, Place.afterAll_append, Place.afterAll_cons]
    exact ih _

/-- An ending is skipped as a whole. -/
theorem skipTrivia_ending {t : List Char} (h : Ending t) (p : Place) :
    skipTrivia ⟨t, p⟩ = ⟨[], p.afterAll t⟩ := by
  cases h with
  | trivia h =>
    have hskip := skipTrivia_append h [] p
    rw [List.append_nil] at hskip
    exact hskip
  | @comment cs body h hbody =>
    have hopen := trivia_body hbody [] ((p.afterAll cs).after ';')
    rw [List.append_nil] at hopen
    rw [skipTrivia_append h, skipTrivia_comment, hopen, Place.afterAll_append,
      Place.afterAll_cons]
    rfl

/-- What is skipped is trivia, up to a character that is none or up to the end. -/
theorem exists_trivia (cs : List Char) :
    Ending cs ∨ ∃ t rest, cs = t ++ rest ∧ Trivia t ∧ Solid rest := by
  match cs with
  | [] => exact .inl (.trivia .nil)
  | c :: cs =>
    by_cases hblank : Text.isBlank c = true
    · obtain hending | ⟨t, rest, rfl, ht, hrest⟩ := exists_trivia cs
      · exact .inl (hending.blank hblank)
      · exact .inr ⟨c :: t, rest, rfl, .blank hblank ht, hrest⟩
    by_cases hcomment : c = ';'
    · subst hcomment
      by_cases hline : '\n' ∈ cs
      case neg => exact .inl (.comment .nil hline)
      obtain ⟨body, after, rfl, hbody⟩ := List.eq_append_cons_of_mem hline
      obtain hending | ⟨t, rest, rfl, ht, hrest⟩ := exists_trivia after
      · exact .inl (hending.closed hbody)
      · exact .inr ⟨';' :: (body ++ '\n' :: t), rest, by simp, .comment hbody ht, hrest⟩
    · exact .inr ⟨[], c :: cs, rfl, .nil, c, cs, rfl, by simpa using hblank, hcomment⟩
termination_by cs.length

/-- The characters of a token are the ones in front. -/
theorem exists_chars {cs rest : List Char} {p q : Place} {found : Except Fault Token.Kind}
    (hcs : Solid cs) (h : kind ⟨cs, p⟩ = (found, ⟨rest, q⟩)) :
    ∃ chars, Solid chars ∧ cs = chars ++ rest ∧ q = p.afterAll chars := by
  obtain ⟨hreaches, hless⟩ := kind_reaches ⟨cs, p⟩
  rw [h] at hreaches hless
  obtain ⟨chars, heq, hplace⟩ := hreaches
  obtain ⟨c, ds, rfl, hc⟩ := hcs
  have hshorter : rest.length < (c :: ds).length := hless (List.cons_ne_nil c ds)
  refine ⟨chars, ?_, heq, hplace⟩
  cases chars with
  | nil =>
    rw [show c :: ds = rest from heq] at hshorter
    exact absurd hshorter (Nat.lt_irrefl _)
  | cons d chars =>
    cases heq
    exact ⟨c, chars, rfl, hc⟩

/-- Only the end of a source is read as its end. -/
theorem isEof_kind {cs : List Char} {p : Place} {k : Token.Kind} {stop : Cursor} (hcs : cs ≠ [])
    (h : kind ⟨cs, p⟩ = (.ok k, stop)) : k.isEof = false := by
  obtain ⟨c, cs, rfl⟩ := List.exists_cons_of_ne_nil hcs
  have hsingle : (single c).isEof = false := by
    unfold single
    split <;> rfl
  simp only [kind, word, mark] at h
  split at h
  · split at h <;> cases h
    rfl
  split at h
  · split at h <;> cases h
    rfl
  split at h
  · cases h
    split <;> rfl
  cases h
  split
  · split
    · rfl
    · exact hsingle
  · exact hsingle

end Scan

/-! ## Layouts -/

/-- A source as trivia and the characters of its tokens in turn, from a place on, with the tokens
read from it: the characters of a token are those that the scan of its kind takes. -/
inductive Laid (file : Option String) : Place → List (List Char) → List Char → List Token → Prop
  | done {p : Place} {t : List Char} (ht : Ending t) :
    Laid file p [] t [⟨.eof, Cursor.position ⟨[], p.afterAll t⟩ file⟩]
  | token {p : Place} {t chars rest : List Char} {k : Token.Kind} {words : List (List Char)}
    {tokens : List Token} (ht : Trivia t) (hchars : Solid chars)
    (hkind : Scan.kind ⟨chars ++ rest, p.afterAll t⟩ =
      (.ok k, ⟨rest, (p.afterAll t).afterAll chars⟩))
    (h : Laid file ((p.afterAll t).afterAll chars) words rest tokens) :
    Laid file p (chars :: words) (t ++ (chars ++ rest))
      (⟨k, Cursor.position ⟨chars ++ rest, p.afterAll t⟩ file⟩ :: tokens)

/-- What may follow a run of characters: the other runs, each behind some trivia, and an ending. -/
inductive Follow : List (List Char) → List Char → Prop
  | done {t : List Char} (ht : Ending t) : Follow [] t
  | next {t chars rest : List Char} {words : List (List Char)} (ht : Trivia t) (hgap : t ≠ [])
    (h : Follow words rest) : Follow (chars :: words) (t ++ (chars ++ rest))

/-- Runs of characters laid out with trivia between any two neighbours. Before the first there may
be some as well. -/
inductive SetApart : List (List Char) → List Char → Prop
  | nothing {t : List Char} (ht : Ending t) : SetApart [] t
  | first {t chars rest : List Char} {words : List (List Char)} (ht : Trivia t)
    (h : Follow words rest) : SetApart (chars :: words) (t ++ (chars ++ rest))

theorem Follow.breaks {words : List (List Char)} {cs : List Char} (h : Follow words cs) :
    Scan.Breaks cs := by
  cases h with
  | done ht => exact ht.breaks
  | next ht hgap => exact ht.breaks_append hgap _

theorem Follow.setApart {words : List (List Char)} {cs : List Char} (h : Follow words cs) :
    SetApart words cs := by
  cases h with
  | done ht => exact .nothing ht
  | next ht _ h => exact .first ht h

namespace Token

variable {file : Option String} {p q : Place} {t chars rest : List Char}

/-- The tokens from a cursor on are the next one and those behind it. -/
theorem listFrom_eq {c next : Cursor} {token : Token} (h : scan file c = (.ok token, next)) :
    listFrom file c =
      if token.kind.isEof then .ok [token] else (listFrom file next).map (token :: ·) := by
  rw [listFrom]
  split
  · next heq =>
    rw [h] at heq
    cases heq
  · next heq =>
    rw [h] at heq
    cases heq
    split
    · rfl
    · cases listFrom file next <;> rfl

/-- At an ending there is one token left. -/
theorem listFrom_ending (ht : Ending t) :
    listFrom file ⟨t, p⟩ = .ok [⟨.eof, Cursor.position ⟨[], p.afterAll t⟩ file⟩] := by
  have hscan : scan file ⟨t, p⟩ =
      (.ok ⟨.eof, Cursor.position ⟨[], p.afterAll t⟩ file⟩, ⟨[], p.afterAll t⟩) := by
    simp only [scan, Scan.skipTrivia_ending ht, Scan.kind]
  rw [listFrom_eq hscan]
  rfl

/-- Behind trivia, the token that stands there is the next one. -/
theorem listFrom_token {k : Token.Kind} (ht : Trivia t) (hchars : Solid chars)
    (hkind : Scan.kind ⟨chars ++ rest, p.afterAll t⟩ = (.ok k, ⟨rest, q⟩)) :
    listFrom file ⟨t ++ (chars ++ rest), p⟩ =
      (listFrom file ⟨rest, q⟩).map
        (⟨k, Cursor.position ⟨chars ++ rest, p.afterAll t⟩ file⟩ :: ·) := by
  have hscan : scan file ⟨t ++ (chars ++ rest), p⟩ =
      (.ok ⟨k, Cursor.position ⟨chars ++ rest, p.afterAll t⟩ file⟩, ⟨rest, q⟩) := by
    simp only [scan, Scan.skipTrivia_append ht, Scan.skipTrivia_of_solid hchars, hkind]
  have heof : k.isEof = false :=
    Scan.isEof_kind (List.append_ne_nil_of_left_ne_nil hchars.ne_nil rest) hkind
  rw [listFrom_eq hscan, if_neg (by rw [heof]; decide)]

/-- The tokens of a source laid out are the tokens read from it. -/
theorem listFrom_laid {words : List (List Char)} {cs : List Char} {tokens : List Token}
    (h : Laid file p words cs tokens) : listFrom file ⟨cs, p⟩ = .ok tokens := by
  induction h with
  | done ht => exact listFrom_ending ht
  | token ht hchars hkind _ ih =>
    rw [listFrom_token ht hchars hkind, ih]
    rfl

/-- A source that can be read is trivia and the characters of its tokens. -/
theorem exists_laid {p : Place} {cs : List Char} {tokens : List Token}
    (h : listFrom file ⟨cs, p⟩ = .ok tokens) : ∃ words, Laid file p words cs tokens := by
  obtain hending | ⟨t, solid, rfl, ht, hsolid⟩ := Scan.exists_trivia cs
  · rw [listFrom_ending hending] at h
    cases h
    exact ⟨[], .done hending⟩
  cases hkind : Scan.kind ⟨solid, p.afterAll t⟩ with
  | mk found stop =>
    obtain ⟨rest, q⟩ := stop
    obtain ⟨chars, hchars, rfl, rfl⟩ := Scan.exists_chars hsolid hkind
    have hlength : 0 < chars.length := List.length_pos_iff.mpr hchars.ne_nil
    cases found with
    | error fault =>
      rw [listFrom] at h
      split at h
      · cases h
      · next token next heq =>
        simp only [scan, Scan.skipTrivia_append ht, Scan.skipTrivia_of_solid hchars, hkind] at heq
        cases heq
    | ok k =>
      rw [listFrom_token ht hchars hkind] at h
      cases hrest : listFrom file ⟨rest, (p.afterAll t).afterAll chars⟩ with
      | error e =>
        rw [hrest] at h
        cases h
      | ok others =>
        rw [hrest] at h
        cases h
        obtain ⟨words, hwords⟩ := exists_laid hrest
        exact ⟨chars :: words, .token ht hchars hkind hwords⟩
termination_by cs.length
decreasing_by
  simp_all only [List.length_append]
  omega

/-- Set apart, the characters of the tokens are read as tokens of the same kinds. -/
theorem listFrom_setApart {words : List (List Char)} {cs other : List Char} {tokens : List Token}
    (h : Laid file p words cs tokens) (hother : SetApart words other) (file' : Option String)
    (p' : Place) : ∃ tokens', listFrom file' ⟨other, p'⟩ = .ok tokens' ∧
      tokens'.map Token.kind = tokens.map Token.kind := by
  induction h generalizing other p' with
  | done =>
    cases hother with
    | nothing ht => exact ⟨_, listFrom_ending ht, rfl⟩
  | token _ hchars hkind _ ih =>
    cases hother with
    | first ht hrest =>
      obtain ⟨q, hkind'⟩ := Scan.kind_replaces hchars.ne_nil hkind (.breaks hrest.breaks)
        (p'.afterAll _)
      obtain ⟨tokens', htokens, hkinds⟩ := ih hrest.setApart q
      have hlist : listFrom file' ⟨_, p'⟩ = _ := listFrom_token ht hchars hkind'
      rw [htokens] at hlist
      refine ⟨_, hlist, ?_⟩
      rw [List.map_cons, List.map_cons, hkinds]

/-- Tokens depend only on their own characters. A source that can be read is trivia and the
characters of its tokens in turn, and however these are laid out anew, with trivia between
neighbours and around, tokens of the same kinds are read. -/
theorem layout_is_free {source : String} {tokens : List Token} (h : list source file = .ok tokens) :
    (∃ words, Laid file {} words source.toList tokens) ∧
    ∀ words other file', Laid file {} words source.toList tokens →
      SetApart words other.toList →
      ∃ tokens', list other file' = .ok tokens' ∧
        tokens'.map Token.kind = tokens.map Token.kind :=
  ⟨exists_laid h, fun _ _ file' hlaid hother => listFrom_setApart hlaid hother file' {}⟩

/-- A range without a blank in it, and with blanks and comments wherever they may stand. -/
theorem layout_is_free_range :
    ∃ tokens, list " 1 ; to\n.. x;" none = .ok tokens ∧ tokens.map Token.kind =
      [.number (Scan.addWhole 10 0 1), .mark .dotDot, .symbol "x", .eof] := by
  have hone : Solid ['1'] := ⟨'1', [], rfl, by decide, by decide⟩
  have hrange : Solid ['.', '.'] := ⟨'.', ['.'], rfl, by decide, by decide⟩
  have hx : Solid ['x'] := ⟨'x', [], rfl, by decide, by decide⟩
  have hlaid : Laid none {} [['1'], ['.', '.'], ['x']] "1..x".toList
      [⟨.number (Scan.addWhole 10 0 1), ⟨none, 1, 1⟩⟩, ⟨.mark .dotDot, ⟨none, 1, 2⟩⟩,
        ⟨.symbol "x", ⟨none, 1, 4⟩⟩, ⟨.eof, ⟨none, 1, 5⟩⟩] :=
    .token (t := []) .nil hone rfl (.token (t := []) .nil hrange rfl (.token (t := []) .nil hx rfl
      (.done (.trivia .nil))))
  have hblank : Trivia [' '] := .blank (by decide) .nil
  have hcomment : Trivia [' ', ';', ' ', 't', 'o', '\n'] :=
    .blank (by decide) (@Trivia.comment [' ', 't', 'o'] [] (by decide) .nil)
  have hother : SetApart [['1'], ['.', '.'], ['x']] " 1 ; to\n.. x;".toList :=
    .first hblank (.next hcomment (by decide) (.next hblank (by decide)
      (.done (@Ending.comment [] [] .nil (by decide)))))
  exact (layout_is_free (listFrom_laid hlaid)).2 _ _ none hlaid hother

end Token

end Clausal
