import Clausal.Proofs.Layout
import Mathlib.Logic.Function.Iterate

/-!
# Where a lexer stands

A lexer keeps its line and its column up to date character by character, in every loop of the
scanners and also when it stops in the middle of a malformed token. They are always those of the
characters consumed: the line feeds among them, and the characters behind the last of these.

* `Place.afterAll_start`: the place that following the characters leads to is the one that counting
  them gives (`Place.following`).
* `Lexer.Calls`: what a call of `Lexer.advance` can do. It passes trivia and the characters of a
  token, trivia up to the end of the source, or trivia and the characters of a malformed token, and
  then it fails and leaves the token as it is (`Lexer.advance_calls`).
* `Lexer.consumed`: the characters that any number of calls, failed ones among them, have read.
* `Lexer.Lists`: all tokens of a source are those of the calls up to the first that finds the end or
  fails, of which there is one (`Lexer.lists_listFrom`).
* `Lexer.positions_are_exact`: so positions are exact after every call.
-/

namespace Clausal

/-! ## Places -/

namespace Place

/-- The place behind some characters, counted from the start of a source: there is a line for each
line feed and one more, and a column for each character behind the last of them and one more. -/
def following (taken : List Char) : Place :=
  ⟨taken.count '\n' + 1, (taken.reverse.takeWhile (· != '\n')).length + 1⟩

theorem following_concat (taken : List Char) (c : Char) :
    following (taken ++ [c]) = (following taken).after c := by
  unfold following after
  by_cases hc : c = '\n'
  · simp [hc]
  · have hcount : [c].count '\n' = 0 := List.count_eq_zero.mpr (by simpa using Ne.symm hc)
    simp [hc, hcount]

theorem afterAll_following (before taken : List Char) :
    (following before).afterAll taken = following (before ++ taken) := by
  induction taken generalizing before with
  | nil => rw [afterAll_nil, List.append_nil]
  | cons c taken ih =>
    rw [afterAll_cons, ← following_concat, ih, List.append_assoc, List.singleton_append]

/-- From the start of a source, following the characters is counting them. -/
theorem afterAll_start (taken : List Char) : ({} : Place).afterAll taken = following taken :=
  afterAll_following [] taken

/-- A place on an earlier line, or further left on the same one. -/
def Before (p q : Place) : Prop := p.line < q.line ∨ p.line = q.line ∧ p.column < q.column

theorem Before.trans {p q r : Place} (h : p.Before q) (h' : q.Before r) : p.Before r := by
  unfold Before at h h' ⊢
  omega

theorem before_after (p : Place) (c : Char) : p.Before (p.after c) := by
  unfold after
  split
  · exact .inl (Nat.lt_succ_self _)
  · exact .inr ⟨rfl, Nat.lt_succ_self _⟩

theorem before_afterAll {cs : List Char} (hcs : cs ≠ []) (p : Place) :
    p.Before (p.afterAll cs) := by
  induction cs generalizing p with
  | nil => exact absurd rfl hcs
  | cons c cs ih =>
    rw [afterAll_cons]
    by_cases hnil : cs = []
    · rw [hnil]
      exact p.before_after c
    · exact (p.before_after c).trans (ih hnil _)

/-- With more characters behind it, a place comes later. -/
theorem before_following {before after : List Char} (h : before <+: after)
    (hlength : before.length < after.length) : (following before).Before (following after) := by
  obtain ⟨more, rfl⟩ := h
  rw [← afterAll_following]
  refine before_afterAll ?_ _
  rintro rfl
  simp at hlength

end Place

/-- Line and column of a position. -/
def Position.place (p : Position) : Place := ⟨p.line, p.column⟩

/-- The position of a place in a file. -/
def Place.position (p : Place) (file : Option String) : Position := ⟨file, p.line, p.column⟩

/-! ## Calls -/

namespace Scan

/-- The characters of a token are a lexeme. -/
theorem exists_lexeme {chars rest : List Char} {p q : Place} {k : Token.Kind}
    (hchars : Solid chars) (h : kind ⟨chars ++ rest, p⟩ = (.ok k, ⟨rest, q⟩)) :
    ∃ l : Lexeme, l.kind = k ∧ l.chars = chars :=
  ⟨⟨k, chars, hchars, fun _ p' hother => kind_replaces hchars.ne_nil h (.breaks hother) p'⟩,
    rfl, rfl⟩

end Scan

namespace Lexer

/-- What a call of `advance` can do. -/
inductive Calls (lexer : Lexer) : Outcome Error Lexer Unit → Prop
  /-- Behind some trivia stands a token. -/
  | token {t rest : List Char} (l : Lexeme) (ht : Trivia t) (hl : l.kind.isEof = false)
    (h : lexer.cursor.rest = t ++ (l.chars ++ rest)) :
    Calls lexer (.ok () ⟨lexer.cursor.past (t ++ l.chars) rest, lexer.file,
      l.kind, (lexer.cursor.past t (l.chars ++ rest)).position lexer.file⟩)
  /-- Nothing but trivia is left. -/
  | ending (h : Ending lexer.cursor.rest) :
    Calls lexer (.ok () ⟨lexer.cursor.past lexer.cursor.rest [], lexer.file,
      .eof, (lexer.cursor.past lexer.cursor.rest []).position lexer.file⟩)
  /-- Behind some trivia stands a malformed token, which is read up to the fault. -/
  | fault {t chars rest : List Char} (e : Error) (ht : Trivia t) (hchars : Solid chars)
    (h : lexer.cursor.rest = t ++ (chars ++ rest)) :
    Calls lexer (.fail e { lexer with cursor := lexer.cursor.past (t ++ chars) rest })

theorem advance_calls (lexer : Lexer) : lexer.Calls (advance lexer) := by
  obtain ⟨⟨cs, p⟩, file, current⟩ := lexer
  obtain hending | ⟨t, solid, rfl, ht, hsolid⟩ := Scan.exists_trivia cs
  · have hscan : scan file ⟨cs, p⟩ =
        (.ok ⟨.eof, Cursor.position ⟨[], p.afterAll cs⟩ file⟩, ⟨[], p.afterAll cs⟩) := by
      simp only [scan, Scan.skipTrivia_ending hending, Scan.kind]
    simp only [advance, hscan]
    exact .ending hending
  cases hkind : Scan.kind ⟨solid, p.afterAll t⟩ with
  | mk found stop =>
    obtain ⟨rest, q⟩ := stop
    obtain ⟨chars, hchars, rfl, rfl⟩ := Scan.exists_chars hsolid hkind
    have hskip : Scan.skipTrivia ⟨t ++ (chars ++ rest), p⟩ = ⟨chars ++ rest, p.afterAll t⟩ := by
      rw [Scan.skipTrivia_append ht, Scan.skipTrivia_of_solid hchars]
    rw [← Place.afterAll_append] at hkind
    cases found with
    | ok k =>
      have hk := Scan.isEof_kind (List.append_ne_nil_of_left_ne_nil hchars.ne_nil rest) hkind
      obtain ⟨l, rfl, rfl⟩ := Scan.exists_lexeme hchars hkind
      simp only [advance, scan, hskip, hkind]
      exact .token l ht hk rfl
    | error fault =>
      simp only [advance, scan, hskip, hkind]
      exact .fault _ ht hchars rfl

/-- The lexer after one more call, whether it fails or not. -/
def next (lexer : Lexer) : Lexer :=
  match advance lexer with
  | .ok () stop => stop
  | .fail _ stop => stop
  | .exhausted => lexer

theorem next_of_ok {lexer stop : Lexer} (h : advance lexer = .ok () stop) : lexer.next = stop := by
  simp only [next, h]

theorem next_of_fail {lexer stop : Lexer} {e : Error} (h : advance lexer = .fail e stop) :
    lexer.next = stop := by
  simp only [next, h]

theorem advance_ne_exhausted (lexer : Lexer) : advance lexer ≠ .exhausted := by
  intro h
  have hcalls := lexer.advance_calls
  rw [h] at hcalls
  cases hcalls

/-- A call that fails leaves the token. -/
theorem current_of_fail {lexer stop : Lexer} {e : Error} (h : advance lexer = .fail e stop) :
    stop.current = lexer.current := by
  have hcalls := lexer.advance_calls
  rw [h] at hcalls
  cases hcalls
  rfl

/-- A call only drops characters from the front, and its place follows them. -/
theorem reaches_next (lexer : Lexer) :
    lexer.cursor.Reaches lexer.next.cursor ∧ lexer.next.file = lexer.file := by
  have hcalls := lexer.advance_calls
  unfold next
  generalize advance lexer = result at hcalls
  cases hcalls with
  | token l _ _ h => exact ⟨Cursor.reaches_past (by rw [h, List.append_assoc]), rfl⟩
  | ending => exact ⟨Cursor.reaches_past (List.append_nil _).symm, rfl⟩
  | fault e _ _ h => exact ⟨Cursor.reaches_past (by rw [h, List.append_assoc]), rfl⟩

/-! ## Any number of calls -/

/-- The lexer of a source before the first call. It stands on no token of the source yet. -/
def unread (source : String) (file : Option String) : Lexer :=
  ⟨.ofSource source, file, .eof, none, 0, 0⟩

/-- A lexer is made by a first call. -/
theorem ofSource_eq (source : String) (file : Option String) :
    (∀ l, ofSource source file = .ok l ↔ advance (unread source file) = .ok () l) ∧
    ∀ e, ofSource source file = .error e ↔ ∃ l, advance (unread source file) = .fail e l := by
  unfold ofSource advance unread
  cases scan file (.ofSource source) with
  | mk found cursor => cases found <;> simp

/-- The characters of a source that a lexer of it has behind it. -/
def consumed (source : String) (lexer : Lexer) : List Char :=
  source.toList.take (source.toList.length - lexer.cursor.rest.length)

theorem consumed_eq {source : String} {lexer : Lexer} {taken : List Char}
    (h : source.toList = taken ++ lexer.cursor.rest) : lexer.consumed source = taken := by
  rw [consumed, h, List.length_append, Nat.add_sub_cancel, List.take_left]

variable (source : String) (file : Option String)

/-- The lexer of a source after `n` calls. -/
def afterCalls (n : Nat) : Lexer := next^[n] (unread source file)

theorem afterCalls_succ (n : Nat) :
    afterCalls source file (n + 1) = (afterCalls source file n).next :=
  Function.iterate_succ_apply' next n (unread source file)

theorem reaches_afterCalls (n : Nat) :
    (Cursor.ofSource source).Reaches (afterCalls source file n).cursor ∧
      (afterCalls source file n).file = file := by
  induction n with
  | zero => exact ⟨.refl _, rfl⟩
  | succ n ih =>
    obtain ⟨hreaches, hfile⟩ := (afterCalls source file n).reaches_next
    rw [afterCalls_succ]
    exact ⟨ih.1.trans hreaches, hfile.trans ih.2⟩

/-- What is consumed and what is left make up the source, and the place is that of what is
consumed. -/
theorem afterCalls_exact (n : Nat) :
    source.toList = (afterCalls source file n).consumed source ++
        (afterCalls source file n).cursor.rest ∧
      (afterCalls source file n).cursor.place =
        .following ((afterCalls source file n).consumed source) := by
  obtain ⟨⟨taken, htaken, hplace⟩, -⟩ := reaches_afterCalls source file n
  rw [consumed_eq htaken, hplace]
  exact ⟨htaken, Place.afterAll_start taken⟩

variable {source file} {n : Nat}

/-- A call adds the characters it drops to those consumed. -/
theorem consumed_succ {more : List Char}
    (h : (afterCalls source file n).cursor.rest =
      more ++ (afterCalls source file (n + 1)).cursor.rest) :
    (afterCalls source file (n + 1)).consumed source =
      (afterCalls source file n).consumed source ++ more := by
  refine consumed_eq ?_
  rw [List.append_assoc, ← h]
  exact (afterCalls_exact source file n).1

theorem consumed_grows (n : Nat) :
    (afterCalls source file n).consumed source <+:
      (afterCalls source file (n + 1)).consumed source := by
  obtain ⟨⟨more, hmore, -⟩, -⟩ := (afterCalls source file n).reaches_next
  rw [← afterCalls_succ] at hmore
  rw [consumed_succ hmore]
  exact List.prefix_append _ _

theorem afterCalls_of_ok {stop : Lexer} (h : advance (afterCalls source file n) = .ok () stop) :
    afterCalls source file (n + 1) = stop := by
  rw [afterCalls_succ, next_of_ok h]

theorem afterCalls_of_fail {stop : Lexer} {e : Error}
    (h : advance (afterCalls source file n) = .fail e stop) :
    afterCalls source file (n + 1) = stop := by
  rw [afterCalls_succ, next_of_fail h]

/-- The token of a call stands where its lexeme starts, behind the trivia; the end of the source
stands behind all characters. -/
theorem position_of_ok {stop : Lexer} (h : advance (afterCalls source file n) = .ok () stop) :
    (stop.current.kind = .eof ∧
      (afterCalls source file (n + 1)).consumed source = source.toList ∧
      stop.current.position = (Place.following source.toList).position file) ∨
    (∃ (t : List Char) (l : Lexeme), Trivia t ∧ stop.current.kind.isEof = false ∧
      l.kind = stop.current.kind ∧
      (afterCalls source file (n + 1)).consumed source =
        (afterCalls source file n).consumed source ++ t ++ l.chars ∧
      stop.current.position =
        (Place.following ((afterCalls source file n).consumed source ++ t)).position file) := by
  obtain ⟨hsource, hplace⟩ := afterCalls_exact source file n
  have hfile := (reaches_afterCalls source file n).2
  have hcalls := (afterCalls source file n).advance_calls
  rw [h] at hcalls
  rw [afterCalls_of_ok h]
  generalize afterCalls source file n = lexer at hsource hplace hfile hcalls ⊢
  cases hcalls with
  | @token t rest l ht hl hrest =>
    refine .inr ⟨t, l, ht, hl, rfl, consumed_eq ?_, ?_⟩
    · rw [hrest] at hsource
      rw [List.append_assoc, List.append_assoc]
      exact hsource
    · rw [← Place.afterAll_following, ← hplace, ← hfile]
      rfl
  | ending hending =>
    refine .inl ⟨rfl, consumed_eq (List.append_nil _).symm, ?_⟩
    rw [hsource, ← Place.afterAll_following, ← hplace, ← hfile]
    rfl

/-- Every call but one that finds the end consumes something. -/
theorem consumed_lt (h : ∀ stop, advance (afterCalls source file n) = .ok () stop →
      stop.current.kind.isEof = false) :
    ((afterCalls source file n).consumed source).length <
      ((afterCalls source file (n + 1)).consumed source).length := by
  have hcalls := (afterCalls source file n).advance_calls
  cases hrun : advance (afterCalls source file n) with
  | ok _ stop =>
    have hstop := h stop hrun
    obtain ⟨heof, -⟩ | ⟨t, l, -, -, -, hconsumed, -⟩ := position_of_ok hrun
    · rw [heof] at hstop
      cases hstop
    · obtain ⟨c, cs, hchars, -⟩ := l.solid
      rw [hconsumed, hchars]
      simp only [List.length_append, List.length_cons]
      omega
  | fail e stop =>
    have hnext := afterCalls_of_fail hrun
    rw [hrun] at hcalls
    cases hcalls with
    | @fault t chars rest _ _ hchars hrest =>
      have hlength := List.length_pos_iff.mpr hchars.ne_nil
      rw [← List.append_assoc] at hrest
      rw [consumed_succ (by rw [hnext]; exact hrest)]
      simp only [List.length_append]
      omega
  | exhausted => exact absurd hrun (advance_ne_exhausted _)

theorem consumed_grows_of_le {m : Nat} (h : m ≤ n) :
    (afterCalls source file m).consumed source <+: (afterCalls source file n).consumed source := by
  induction h with
  | refl => exact List.prefix_rfl
  | step _ ih => exact ih.trans (consumed_grows _)

/-- Tokens come one behind the other, up to the end of the source. -/
theorem positions_increase {m : Nat} {s t : Lexer} (hmn : m < n)
    (hs : advance (afterCalls source file m) = .ok () s)
    (ht : advance (afterCalls source file n) = .ok () t) (hend : s.current.kind.isEof = false) :
    s.current.position.place.Before t.current.position.place := by
  obtain ⟨heof, -⟩ | ⟨u, l, -, -, -, hconsumed, hposition⟩ := position_of_ok hs
  · rw [heof] at hend
    cases hend
  obtain ⟨c, cs, hchars, -⟩ := l.solid
  -- what the second token stands behind includes the lexeme of the first
  have hlater : ∃ taken, (afterCalls source file n).consumed source <+: taken ∧
      t.current.position = (Place.following taken).position file := by
    obtain ⟨-, -, hposition⟩ | ⟨u, l, -, -, -, -, hposition⟩ := position_of_ok ht
    · refine ⟨source.toList, ?_, hposition⟩
      exact ⟨_, (afterCalls_exact source file n).1.symm⟩
    · exact ⟨_, List.prefix_append _ u, hposition⟩
  obtain ⟨taken, htaken, hposition'⟩ := hlater
  have hprefix : (afterCalls source file (m + 1)).consumed source <+: taken :=
    (consumed_grows_of_le hmn).trans htaken
  rw [hconsumed] at hprefix
  have hlength := hprefix.length_le
  rw [hposition, hposition']
  refine Place.before_following ((List.prefix_append _ _).trans hprefix) ?_
  rw [List.length_append, hchars, List.length_cons] at hlength
  omega

/-! ## All tokens -/

/-- Calling again and again, up to the end of the source or up to a fault. -/
inductive Lists : Lexer → Except Error (List Token) → Prop
  | ending {lexer stop : Lexer} (h : advance lexer = .ok () stop)
    (hend : stop.current.kind = .eof) : Lists lexer (.ok [stop.current])
  | token {lexer stop : Lexer} {result : Except Error (List Token)}
    (h : advance lexer = .ok () stop) (hend : stop.current.kind.isEof = false)
    (hrest : Lists stop result) : Lists lexer (result.map (stop.current :: ·))
  | fault {lexer stop : Lexer} {e : Error} (h : advance lexer = .fail e stop) :
    Lists lexer (.error e)

theorem lists_listFrom (lexer : Lexer) : lexer.Lists (Token.listFrom lexer.file lexer.cursor) := by
  obtain ⟨cursor, file, current⟩ := lexer
  cases hscan : scan file cursor with
  | mk found stop =>
    cases found with
    | error e =>
      have hlist : Token.listFrom file cursor = .error e := by
        rw [Token.listFrom]
        split
        · next heq =>
          rw [hscan] at heq
          cases heq
          rfl
        · next heq =>
          rw [hscan] at heq
          cases heq
      have hcall : advance ⟨cursor, file, current⟩ = .fail e ⟨stop, file, current⟩ := by
        simp only [advance, hscan]
      rw [hlist]
      exact .fault hcall
    | ok token =>
      have hcall : advance ⟨cursor, file, current⟩ = .ok () ⟨stop, file, token⟩ := by
        simp only [advance, hscan]
      rw [Token.listFrom_eq hscan]
      split
      · next hend =>
        refine .ending hcall ?_
        cases hkind : token.kind <;> rw [hkind] at hend <;> first | rfl | cases hend
      · next hend =>
        have hend : token.kind.isEof = false := by simpa using hend
        have hless := scan_length_lt hscan hend
        exact .token hcall hend (lists_listFrom ⟨stop, file, token⟩)
termination_by lexer.cursor.rest.length

theorem length_lt_of_token {lexer stop : Lexer} (h : advance lexer = .ok () stop)
    (hend : stop.current.kind.isEof = false) :
    stop.cursor.rest.length < lexer.cursor.rest.length := by
  have hcalls := lexer.advance_calls
  rw [h] at hcalls
  cases hcalls with
  | token l _ _ hrest =>
    obtain ⟨c, cs, hchars, -⟩ := l.solid
    rw [hrest, hchars]
    simp only [Cursor.past, List.length_append, List.length_cons]
    omega
  | ending => cases hend

/-- Call number `n` from a lexer finds this token. -/
def Finds (lexer : Lexer) (n : Nat) (token : Token) : Prop :=
  ∃ stop, advance (next^[n] lexer) = .ok () stop ∧ stop.current = token

theorem Finds.succ {lexer stop : Lexer} {token : Token} (hcall : advance lexer = .ok () stop)
    (h : stop.Finds n token) : lexer.Finds (n + 1) token := by
  rwa [Finds, Function.iterate_succ_apply, next_of_ok hcall]

/-- The tokens are those of the calls up to the first that finds the end. -/
theorem Lists.finds {lexer : Lexer} {tokens : List Token} (h : lexer.Lists (.ok tokens)) :
    tokens.length ≤ lexer.cursor.rest.length + 1 ∧
    (∀ n token, tokens[n]? = some token → lexer.Finds n token) ∧
    ∃ front last, tokens = front ++ [last] ∧ last.kind = .eof ∧
      ∀ t ∈ front, t.kind.isEof = false := by
  generalize hresult : Except.ok tokens = result at h
  induction h generalizing tokens with
  | @ending lexer stop h hend =>
    cases hresult
    refine ⟨Nat.le_add_left 1 _, fun n token htoken => ?_, [], stop.current, rfl, hend, nofun⟩
    cases n with
    | zero =>
      cases htoken
      exact ⟨stop, h, rfl⟩
    | succ n => cases htoken
  | @token lexer stop result h hend _ ih =>
    cases result with
    | error e => cases hresult
    | ok rest =>
      cases hresult
      obtain ⟨hlength, hfinds, front, last, rfl, hlast, hfront⟩ := ih rfl
      have hless := length_lt_of_token h hend
      refine ⟨?_, fun n token htoken => ?_, stop.current :: front, last, rfl, hlast, ?_⟩
      · rw [List.length_cons]
        omega
      · cases n with
        | zero =>
          cases htoken
          exact ⟨stop, h, rfl⟩
        | succ n => exact (hfinds n token htoken).succ h
      · exact List.forall_mem_cons.mpr ⟨hend, hfront⟩
  | fault => cases hresult

theorem Lists.fails {lexer : Lexer} {e : Error} (h : lexer.Lists (.error e)) :
    ∃ n ≤ lexer.cursor.rest.length,
      (∀ m < n, ∃ token, lexer.Finds m token ∧ token.kind.isEof = false) ∧
      ∃ stop, advance (next^[n] lexer) = .fail e stop := by
  generalize hresult : Except.error e = result at h
  induction h with
  | ending => cases hresult
  | @token lexer stop result h hend _ ih =>
    cases result with
    | ok rest => cases hresult
    | error e =>
      cases hresult
      obtain ⟨n, hn, hfinds, last, hfails⟩ := ih rfl
      have hless := length_lt_of_token h hend
      refine ⟨n + 1, by omega, fun m hm => ?_, last, ?_⟩
      · cases m with
        | zero => exact ⟨stop.current, ⟨stop, h, rfl⟩, hend⟩
        | succ m =>
          obtain ⟨token, htoken, hkind⟩ := hfinds m (Nat.lt_of_succ_lt_succ hm)
          exact ⟨token, htoken.succ h, hkind⟩
      · rwa [Function.iterate_succ_apply, next_of_ok h]
  | fault h =>
    cases hresult
    exact ⟨0, Nat.zero_le _, nofun, _, h⟩

/-! ## Positions -/

/-- Positions are exact. Let a source be read by any number of calls, the first of which makes the
lexer and any of which may fail. After each of them line and column are those of the characters
consumed. A call never gives back what was consumed, and it consumes something unless it finds the
end. Its token is placed at the first character of its lexeme, and the end behind the last character
of the source; when it fails, the token stays. So the tokens of later calls come behind those of
earlier ones. All tokens of a source are those of the calls up to the first that finds the end, or
there is a first fault before; either takes no more calls than there are characters and one. -/
theorem positions_are_exact (source : String) (file : Option String) :
    (∀ l, ofSource source file = .ok l ↔ advance (afterCalls source file 0) = .ok () l) ∧
    (∀ e, ofSource source file = .error e ↔
      ∃ l, advance (afterCalls source file 0) = .fail e l) ∧
    let lexer := afterCalls source file
    let consumed := fun n => (lexer n).consumed source
    (∀ n, source.toList = consumed n ++ (lexer n).cursor.rest ∧
      (lexer n).position = (Place.following (consumed n)).position file) ∧
    (∀ n, consumed n <+: consumed (n + 1) ∧
      match advance (lexer n) with
      | .ok () stop =>
        stop = lexer (n + 1) ∧
        ((stop.current.kind = .eof ∧ consumed (n + 1) = source.toList ∧
          stop.current.position = (Place.following source.toList).position file) ∨
        (stop.current.kind.isEof = false ∧ (consumed n).length < (consumed (n + 1)).length ∧
          ∃ (t : List Char) (l : Lexeme), Trivia t ∧ l.kind = stop.current.kind ∧
            consumed (n + 1) = consumed n ++ t ++ l.chars ∧
            stop.current.position = (Place.following (consumed n ++ t)).position file))
      | .fail _ stop =>
        stop = lexer (n + 1) ∧ stop.current = (lexer n).current ∧
        (consumed n).length < (consumed (n + 1)).length
      | .exhausted => False) ∧
    (∀ m n s t, m < n → advance (lexer m) = .ok () s → advance (lexer n) = .ok () t →
      s.current.kind.isEof = false →
      s.current.position.place.Before t.current.position.place) ∧
    (match Token.list source file with
      | .ok tokens =>
        tokens.length ≤ source.length + 1 ∧
        (∀ n token, tokens[n]? = some token → (lexer 0).Finds n token) ∧
        ∃ front last, tokens = front ++ [last] ∧ (∀ t ∈ front, t.kind.isEof = false) ∧
          last.kind = .eof ∧ last.position = (Place.following source.toList).position file
      | .error e =>
        ∃ n ≤ source.length, (∃ stop, advance (lexer n) = .fail e stop) ∧
          ∀ m < n, ∃ token, (lexer 0).Finds m token ∧ token.kind.isEof = false) := by
  refine ⟨(ofSource_eq source file).1, (ofSource_eq source file).2, ?_⟩
  intro lexer consumed
  refine ⟨fun n => ?_, fun n => ?_,
    fun m n s t hmn hs ht hend => positions_increase hmn hs ht hend, ?_⟩
  · obtain ⟨hsource, hplace⟩ := afterCalls_exact source file n
    refine ⟨hsource, ?_⟩
    rw [Lexer.position, Cursor.position, (reaches_afterCalls source file n).2, hplace]
    rfl
  · refine ⟨consumed_grows n, ?_⟩
    split
    · next stop hcall =>
      refine ⟨(afterCalls_of_ok hcall).symm, ?_⟩
      obtain hending | ⟨t, l, ht, hend, hl, hconsumed, hposition⟩ := position_of_ok hcall
      · exact .inl hending
      · refine .inr ⟨hend, consumed_lt fun other hother => ?_, t, l, ht, hl, hconsumed, hposition⟩
        cases hcall.symm.trans hother
        exact hend
    · next e stop hcall =>
      refine ⟨(afterCalls_of_fail hcall).symm, current_of_fail hcall, consumed_lt ?_⟩
      intro other hother
      cases hcall.symm.trans hother
    · next hcall => exact advance_ne_exhausted (lexer n) hcall
  · have hlists : (unread source file).Lists (Token.list source file) := lists_listFrom _
    split
    · next tokens htokens =>
      rw [htokens] at hlists
      obtain ⟨hlength, hfinds, front, last, rfl, hlast, hfront⟩ := hlists.finds
      refine ⟨hlength, hfinds, front, last, rfl, hfront, hlast, ?_⟩
      obtain ⟨stop, hcall, rfl⟩ := hfinds front.length last List.getElem?_concat_length
      obtain ⟨-, -, hposition⟩ | ⟨t, l, -, hend, -⟩ := position_of_ok hcall
      · exact hposition
      · rw [hlast] at hend
        cases hend
    · next e he =>
      rw [he] at hlists
      obtain ⟨n, hn, hfinds, hfails⟩ := hlists.fails
      exact ⟨n, hn, hfails, hfinds⟩

/-- A text over two lines, a number with a digit too large, and a word behind a comment: the second
call fails, and the third goes on behind the fault. -/
theorem positions_are_exact_malformed :
    let lexer := afterCalls "\"a\nb\" 08 ; c\n  let x" none
    ∃ s e t, advance (lexer 0) = .ok () s ∧ advance (lexer 1) = .fail e (lexer 2) ∧
      advance (lexer 2) = .ok () t ∧ (lexer 2).current = s.current ∧
      (lexer 2).position = ⟨none, 2, 6⟩ ∧ t.current.position = ⟨none, 3, 3⟩ ∧
      s.current.position.place.Before t.current.position.place := by
  intro lexer
  obtain ⟨-, -, -, hcalls, hincrease, -⟩ :=
    positions_are_exact "\"a\nb\" 08 ; c\n  let x" none
  refine ⟨_, _, _, rfl, rfl, rfl, (hcalls 1).2.2.1, rfl, rfl, ?_⟩
  exact hincrease 0 2 _ _ (by decide) rfl rfl rfl

end Lexer

end Clausal
