import Clausal.Proofs.Layout
import Clausal.Proofs.Rereading

/-!
# Reading across a seam

Two texts of declarations are joined by a line break. Up to the end of the first text the whole is
read like the first text alone, token by token. Where the first text ends, the whole goes on with
the first token of the second text: the end again, or the word `let`. No parser of a declaration
tells these two from the end of a source (`Seam.Joins.alike`), so whatever is read from the first
text is read from the whole as well.

* `Seam`: what stands behind a text: nothing, or a line break and a text of declarations.
* `Seam.Joins`: a lexer in the first text and one in the whole that correspond. Where the first can
  go on, the second can as well (`Seam.Joins.passes`).
* `Parse.declarations_mirror`: the declarations of the first text are read, and reading goes on
  behind the seam.
-/

namespace Clausal

/-! ## Tokens across a seam -/

/-- What stands behind a text, with the token it begins with and what is left then. -/
structure Seam where
  tail : List Char
  kind : Token.Kind
  rest : List Char
  /-- A comment at the end of the text ends there. -/
  closes : tail = [] ∨ ∃ cs, tail = '\n' :: cs
  /-- It begins with a declaration, if with anything. -/
  opens : kind = .eof ∨ kind = .keyword .letWord
  scans : ∀ file p, ∃ position q, scan file ⟨tail, p⟩ = (.ok ⟨kind, position⟩, ⟨rest, q⟩)

namespace Seam

variable {seam : Seam} {file : Option String}

theorem breaks_tail (seam : Seam) : Scan.Breaks seam.tail := by
  rcases seam.closes with htail | ⟨cs, htail⟩
  · rw [htail]
    exact Scan.breaks_nil
  · rw [htail]
    intro c hc
    cases hc
    exact .inl (by decide)

/-- An ending before the seam is skipped. -/
theorem skipTrivia_ending {t : List Char} (ht : Ending t) (p : Place) :
    ∃ q, Scan.skipTrivia ⟨t ++ seam.tail, p⟩ = Scan.skipTrivia ⟨seam.tail, q⟩ := by
  rcases seam.closes with htail | ⟨cs, htail⟩
  · rw [htail, List.append_nil, Scan.skipTrivia_ending ht]
    exact ⟨p.afterAll t, rfl⟩
  · have hline := Scan.skipTrivia_append ht.line cs p
    rw [List.append_assoc, Place.afterAll_append] at hline
    refine ⟨p.afterAll t, ?_⟩
    rw [htail, Scan.skipTrivia_blank (by decide)]
    exact hline

/-- The token that a scan of the text finds is found in the whole, or the text is at its end and the
token behind the seam is. -/
theorem scan_append (seam : Seam) {cs : List Char} {p : Place} {token : Token} {stop : Cursor}
    (h : scan file ⟨cs, p⟩ = (.ok token, stop)) (file' : Option String) (p' : Place) :
    (token.kind.isEof = false ∧ ∃ position q,
      scan file' ⟨cs ++ seam.tail, p'⟩ =
        (.ok ⟨token.kind, position⟩, ⟨stop.rest ++ seam.tail, q⟩)) ∨
    (token.kind = .eof ∧ stop.rest = [] ∧ ∃ position q,
      scan file' ⟨cs ++ seam.tail, p'⟩ = (.ok ⟨seam.kind, position⟩, ⟨seam.rest, q⟩)) := by
  obtain hending | ⟨t, solid, rfl, ht, hsolid⟩ := Scan.exists_trivia cs
  · right
    simp only [scan, Scan.skipTrivia_ending hending, Scan.kind] at h
    cases h
    obtain ⟨q, hskip⟩ := seam.skipTrivia_ending hending p'
    obtain ⟨position, stop, hscan⟩ := seam.scans file' q
    refine ⟨rfl, rfl, position, stop, ?_⟩
    rw [← hscan]
    simp only [scan, hskip]
  · left
    have hskip (rest : List Char) (p : Place) :
        Scan.skipTrivia ⟨solid ++ rest, p⟩ = ⟨solid ++ rest, p⟩ :=
      Scan.skipTrivia_of_solid hsolid rest p
    have hskip' := hskip [] (p.afterAll t)
    rw [List.append_nil] at hskip'
    simp only [scan, Scan.skipTrivia_append ht, hskip'] at h
    cases hkind : Scan.kind ⟨solid, p.afterAll t⟩ with
    | mk found last =>
      rw [hkind] at h
      cases found with
      | error fault => cases h
      | ok k =>
        cases h
        obtain ⟨rest, q⟩ := stop
        have hend := Scan.isEof_kind hsolid.ne_nil hkind
        obtain ⟨chars, hchars, rfl, -⟩ := Scan.exists_chars hsolid hkind
        obtain ⟨q', hkind'⟩ := Scan.kind_replaces hchars.ne_nil hkind (.append seam.breaks_tail)
          (p'.afterAll t)
        refine ⟨hend, ?_⟩
        rw [List.append_assoc]
        simp only [scan, Scan.skipTrivia_append ht, hskip]
        rw [List.append_assoc, hkind']
        exact ⟨_, q', rfl⟩

/-- Nothing behind the text. -/
def nothing : Seam where
  tail := []
  kind := .eof
  rest := []
  closes := .inl rfl
  opens := .inl rfl
  scans _ _ := ⟨_, _, rfl⟩

/-- A line break and another text, which begins with a declaration or is empty. -/
def line {text : String} {lexer : Lexer} (h : Lexer.ofSource text none = .ok lexer)
    (hopens : lexer.current.kind = .eof ∨ lexer.current.kind = .keyword .letWord) : Seam where
  tail := '\n' :: text.toList
  kind := lexer.current.kind
  rest := lexer.cursor.rest
  closes := .inr ⟨_, rfl⟩
  opens := hopens
  scans file p := by
    rw [Lexer.ofSource] at h
    split at h
    · next token stop hscan =>
      cases h
      have hline : scan file ⟨'\n' :: text.toList, p⟩ = scan file ⟨text.toList, p.after '\n'⟩ := rfl
      rw [hline]
      -- where it is read makes no difference to what is read
      obtain ⟨-, position, q, hother⟩ | ⟨hend, hrest, position, q, hother⟩ :=
        nothing.scan_append hscan file (p.after '\n')
      · simp only [nothing, List.append_nil] at hother
        exact ⟨position, q, hother⟩
      · simp only [nothing, List.append_nil] at hother
        rw [hend, hrest]
        exact ⟨position, q, hother⟩
    · cases h

/-! ## Lexers that correspond -/

/-- A lexer in the text and one in the whole stand on the same token, or the first has come to its
end and the second has crossed the seam. -/
inductive Joins (seam : Seam) (first second : Lexer) : Prop
  | inside (hend : first.current.kind.isEof = false)
    (hkind : second.current.kind = first.current.kind)
    (hrest : second.cursor.rest = first.cursor.rest ++ seam.tail)
  | across (hend : first.current.kind = .eof) (hkind : second.current.kind = seam.kind)
    (hrest : second.cursor.rest = seam.rest)

/-- A scan of a text and one of the whole lead to lexers that correspond. -/
theorem Joins.of_scan (seam : Seam) {cs : List Char} {p : Place} {token : Token} {stop : Cursor}
    (h : scan file ⟨cs, p⟩ = (.ok token, stop)) (file' : Option String) (p' : Place) :
    ∃ token' stop', scan file' ⟨cs ++ seam.tail, p'⟩ = (.ok token', stop') ∧
      seam.Joins ⟨stop, file, token⟩ ⟨stop', file', token'⟩ := by
  obtain ⟨hend, position, q, hscan⟩ | ⟨hend, -, position, q, hscan⟩ :=
    seam.scan_append h file' p'
  · exact ⟨_, _, hscan, .inside hend rfl rfl⟩
  · exact ⟨_, _, hscan, .across hend rfl rfl⟩

variable {first second : Lexer}

/-- At the end of the text the seam has been crossed. -/
theorem Joins.crossed (h : seam.Joins first second) (hend : first.current.kind = .eof) :
    second.current.kind = seam.kind ∧ second.cursor.rest = seam.rest := by
  cases h with
  | inside hnot =>
    rw [hend] at hnot
    cases hnot
  | across _ hkind hrest => exact ⟨hkind, hrest⟩

/-- No parser of a declaration tells the two apart. -/
theorem Joins.alike (h : seam.Joins first second) :
    first.current.kind.Alike second.current.kind := by
  cases h with
  | inside _ hkind => exact .inl hkind
  | across hend hkind =>
    refine .inr ⟨by rw [hend]; exact .eof, ?_⟩
    rw [hkind]
    rcases seam.opens with heof | hlet
    · rw [heof]
      exact .eof
    · rw [hlet]
      exact .letWord

/-- Where the one goes on over a token, the other does too. -/
theorem Joins.advance {next : Lexer} (h : seam.Joins first second)
    (hend : first.current.kind.isEof = false) (hnext : Lexer.advance first = .ok () next) :
    ∃ next', Lexer.advance second = .ok () next' ∧ seam.Joins next next' := by
  cases h with
  | across hend' =>
    rw [hend'] at hend
    cases hend
  | inside _ _ hrest =>
    rw [Lexer.advance] at hnext
    split at hnext
    · next token cursor hscan =>
      cases hnext
      obtain ⟨⟨chars, p⟩, file, current⟩ := first
      obtain ⟨⟨chars', p'⟩, file', current'⟩ := second
      dsimp only at hrest hscan
      subst hrest
      obtain ⟨token', cursor', hscan', hjoins⟩ := Joins.of_scan seam hscan file' p'
      refine ⟨_, ?_, hjoins⟩
      simp only [Lexer.advance, hscan']
    · cases hnext

/-- The tokens that the one passes over are passed over by the other. -/
theorem Joins.passes {last : Lexer} {ks : List Token.Kind} (h : seam.Joins first second)
    (hpasses : first.Passes ks last) : ∃ last', second.Passes ks last' ∧ seam.Joins last last' := by
  induction hpasses generalizing second with
  | nil => exact ⟨second, .nil second, h⟩
  | @cons first next last ks hend hnext _ ih =>
    obtain ⟨next', hnext', hjoins⟩ := h.advance hend hnext
    obtain ⟨last', hlast', hjoins'⟩ := ih hjoins
    refine ⟨last', ?_, hjoins'⟩
    cases h with
    | across hend' =>
      rw [hend'] at hend
      cases hend
    | inside _ hkind =>
      rw [← hkind]
      exact .cons (by rw [hkind, hend]) hnext' hlast'

end Seam

namespace Parse

open Seam

/-! ## Declarations -/

variable {isNative : String → Bool} {seam : Seam} {first second : Lexer}

theorem declaration_mirrors {d : Declaration} {stop : Lexer} (h : seam.Joins first second)
    (hrun : declaration isNative first = .ok d stop) :
    ∃ stop', declaration isNative second = .ok d stop' ∧ seam.Joins stop stop' := by
  obtain ⟨ks, hks, hread⟩ := declaration_reads_again hrun
  obtain ⟨stop', hstop', hjoins⟩ := h.passes hks
  exact ⟨stop', hread second stop' hstop' hjoins.alike, hjoins⟩

/-- One more step of the declarations. -/
theorem declarations_succ (steps : Nat) (lexer : Lexer) :
    declarations isNative (steps + 1) lexer =
      if lexer.current.kind.isKeyword .letWord then
        (do
          let first ← declaration isNative
          let rest ← declarations isNative steps
          return first :: rest) lexer
      else .ok [] lexer := by
  rw [declarations]
  show (if lexer.current.kind.isKeyword .letWord then _ else _ : Parse _) lexer = _
  split <;> rfl

/-- The declarations of the text are read from the whole, and then those behind the seam. -/
theorem declarations_mirror {steps : Nat} {group : List Declaration} {stop : Lexer}
    (h : seam.Joins first second)
    (hrun : declarations isNative steps first = .ok group stop) (steps' : Nat) :
    declarations isNative steps' second = .exhausted ∨ ∃ rest stop', seam.Joins stop stop' ∧
      declarations isNative steps' second =
        (do let more ← declarations isNative rest; return group ++ more) stop' := by
  induction steps generalizing first second group steps' with
  | zero => cases hrun
  | succ steps ih =>
    rw [declarations_succ] at hrun
    cases hlet : first.current.kind.isKeyword .letWord with
    | false =>
      rw [if_neg (by rw [hlet]; decide)] at hrun
      cases hrun
      refine .inr ⟨steps', second, h, ?_⟩
      simp only [List.nil_append, bind_pure]
    | true =>
      rw [if_pos hlet] at hrun
      obtain ⟨d, mid, hd, hrest⟩ := Run.bind_eq_ok_iff.mp hrun
      obtain ⟨ds, last, hds, hlast⟩ := Run.bind_eq_ok_iff.mp hrest
      cases hlast
      have hlet' : second.current.kind.isKeyword .letWord = true := by
        cases h with
        | inside _ hkind => rw [hkind, hlet]
        | across hend =>
          rw [hend] at hlet
          cases hlet
      cases steps' with
      | zero => exact .inl rfl
      | succ steps' =>
        rw [declarations_succ, if_pos hlet']
        obtain ⟨mid', hd', hmid⟩ := declaration_mirrors h hd
        rw [Run.bind_ok hd']
        obtain hout | ⟨rest, stop', hstop, heq⟩ := ih hmid hds steps'
        · exact .inl (Run.bind_exhausted hout)
        refine .inr ⟨rest, stop', hstop, ?_⟩
        simp only [Bind.bind, Run.bind] at heq ⊢
        rw [heq]
        cases declarations isNative rest stop' <;> rfl

end Parse

end Clausal
