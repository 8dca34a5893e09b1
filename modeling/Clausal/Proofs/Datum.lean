import Clausal.Proofs.Alike
import Clausal.Proofs.Layout
import Clausal.Proofs.RoundTrip
import Clausal.Proofs.Sessions

/-!
# Lists that can be read back

The text of a list is an expression of the language, and its value is the list again. That holds of
lists of any shape of void, truth values, strings and such lists, as long as the strings have no
character that quoting spells by its number (`Text.Legible`).

A `Datum` is what such a text says. It stands between the two sides: it describes values whatever
the shape of their lists is (`Datum.Describes`), and it is all that their text depends on.

* `Lexeme.Spells`: characters that are read as tokens, with or without a space between them.
* `Datum.spells`, `Datum.reads`: the text of a datum is read as its expression.
* `Datum.eval_expr`: the expression has a value that the datum describes.
* `Datum.compare_eq`: values that one datum describes are equal.
-/

namespace Clausal

open List (Forall₂)
open Lexeme (next)

/-! ## Quoted strings -/

namespace Text

/-- Quoting leaves the character as it is, or escapes it as a string literal would. -/
def Legible (c : Char) : Prop := escapeChar c = c.toString ∨ c ∈ ['"', '\\', '\n', '\r', '\t']

instance (c : Char) : Decidable (Legible c) := inferInstanceAs (Decidable (_ ∨ _))

end Text

namespace Scan

open Text (Legible escapeChar)

/-- A legible character is read back from the way it is quoted. -/
theorem textContent_escapeChar {c : Char} (h : Legible c) (acc rest : List Char) (p : Place) :
    ∃ q, textContent acc ((escapeChar c).toList ++ rest) p = textContent (c :: acc) rest q := by
  by_cases hspecial : c ∈ ['"', '\\', '\n', '\r', '\t']
  · simp only [List.mem_cons, List.not_mem_nil, or_false] at hspecial
    rcases hspecial with rfl | rfl | rfl | rfl | rfl <;> exact ⟨_, rfl⟩
  · have hplain : (escapeChar c).toList = [c] := by
      rw [h.resolve_right hspecial, Char.toString_eq_singleton, String.toList_singleton]
    simp only [List.mem_cons, not_or] at hspecial
    refine ⟨p.after c, ?_⟩
    rw [hplain, List.singleton_append, textContent]
    · exact hspecial.1
    · exact fun hslash _ => hspecial.2.1 hslash
    · exact fun _ _ hslash _ => hspecial.2.1 hslash

theorem textContent_quoted {cs : List Char} (h : ∀ c ∈ cs, Legible c) (acc rest : List Char)
    (p : Place) :
    ∃ q, textContent acc (cs.flatMap (fun c => (escapeChar c).toList) ++ '"' :: rest) p =
      (some (String.ofList (acc.reverse ++ cs)), ⟨rest, q⟩) := by
  induction cs generalizing acc p with
  | nil => exact ⟨_, by simp [textContent]; rfl⟩
  | cons c cs ih =>
    obtain ⟨hc, hcs⟩ := List.forall_mem_cons.mp h
    obtain ⟨q, hq⟩ := textContent_escapeChar hc acc
      (cs.flatMap (fun c => (escapeChar c).toList) ++ '"' :: rest) p
    obtain ⟨q', hq'⟩ := ih hcs (c :: acc) q
    refine ⟨q', ?_⟩
    rw [List.flatMap_cons, List.append_assoc, hq, hq', List.reverse_cons, List.append_assoc,
      List.singleton_append]

/-- A string of legible characters is read back from its quoted text, whatever follows. -/
theorem kind_quoted {s : String} (h : ∀ c ∈ s.toList, Legible c) (rest : List Char) (p : Place) :
    ∃ q, kind ⟨(Text.quoted s).toList ++ rest, p⟩ = (.ok (.text s), ⟨rest, q⟩) := by
  have hchars : (Text.quoted s).toList ++ rest =
      '"' :: (s.toList.flatMap (fun c => (escapeChar c).toList) ++ '"' :: rest) := by
    simp [Text.quoted, String.toList_join, List.flatMap_map]
  obtain ⟨q, hq⟩ := textContent_quoted h [] rest (p.after '"')
  rw [List.reverse_nil, List.nil_append, String.ofList_toList] at hq
  have hdigit : '"'.isDigit = false := by decide
  refine ⟨q, ?_⟩
  rw [hchars]
  simp only [kind, hdigit, Bool.false_eq_true, if_false, if_true, text, hq]

end Scan

/-! ## Characters read as tokens -/

namespace Lexeme

open Scan

/-- The characters up to the end of the source are read as the tokens of these lexemes. The tokens
may be spelled in another way than the lexemes, and follow each other without a space. -/
inductive Spells : List Char → List Lexeme → Prop
  | nil : Spells [] []
  | space {cs : List Char} {ls : List Lexeme} (h : Spells cs ls) : Spells (' ' :: cs) ls
  | token {cs rest : List Char} {l : Lexeme} {ls : List Lexeme} (hcs : Solid cs)
    (hscan : ∀ p, ∃ q, Scan.kind ⟨cs ++ rest, p⟩ = (.ok l.kind, ⟨rest, q⟩))
    (h : Spells rest ls) : Spells (cs ++ rest) (l :: ls)

namespace Spells

variable {cs rest : List Char} {l : Lexeme} {ls : List Lexeme}

theorem length_le (h : Spells cs ls) : ls.length ≤ cs.length := by
  induction h with
  | nil => exact Nat.le_refl _
  | space _ ih =>
    rw [List.length_cons]
    omega
  | token hcs _ _ ih =>
    have hpos := List.length_pos_iff.mpr hcs.ne_nil
    rw [List.length_append, List.length_cons]
    omega

theorem scan_nil (h : Spells cs []) (file : Option String) (p : Place) :
    ∃ position q, scan file ⟨cs, p⟩ = (.ok ⟨.eof, position⟩, ⟨[], q⟩) := by
  generalize hls : [] = ls at h
  induction h generalizing p with
  | nil => exact ⟨_, p, rfl⟩
  | space _ ih =>
    obtain ⟨q, hq⟩ := scan_space file _ p
    rw [hq]
    exact ih q hls
  | token => cases hls

theorem scan_cons (h : Spells cs (l :: ls)) (file : Option String) (p : Place) :
    ∃ position rest q, scan file ⟨cs, p⟩ = (.ok ⟨l.kind, position⟩, ⟨rest, q⟩) ∧
      Spells rest ls := by
  generalize hls : l :: ls = ls' at h
  induction h generalizing p with
  | nil => cases hls
  | space _ ih =>
    obtain ⟨q, hq⟩ := scan_space file _ p
    rw [hq]
    exact ih q hls
  | @token cs rest l' ls' hcs hscan hrest =>
    cases hls
    obtain ⟨q, hq⟩ := hscan p
    refine ⟨Cursor.position ⟨cs ++ rest, p⟩ file, rest, q, ?_, hrest⟩
    simp only [scan, skipTrivia_of_solid hcs, hq]

theorem shows {lexer : Lexer} (hkind : lexer.current.kind = l.kind)
    (h : Spells lexer.cursor.rest ls) : lexer.Shows (l :: ls) := by
  induction ls generalizing lexer l with
  | nil =>
    obtain ⟨position, q, hscan⟩ := h.scan_nil lexer.file lexer.cursor.place
    refine ⟨hkind, { lexer with cursor := ⟨[], q⟩, current := ⟨.eof, position⟩ }, ?_, rfl⟩
    rw [Lexer.advance, hscan]
  | cons m ls ih =>
    obtain ⟨position, rest, q, hscan, hrest⟩ := h.scan_cons lexer.file lexer.cursor.place
    refine ⟨hkind, { lexer with cursor := ⟨rest, q⟩, current := ⟨m.kind, position⟩ }, ?_,
      ih rfl hrest⟩
    rw [Lexer.advance, hscan]

/-- A source that spells lexemes is read as their tokens. -/
theorem exists_shows (h : Spells cs (l :: ls)) (file : Option String) :
    ∃ lexer, Lexer.ofSource (String.ofList cs) file = .ok lexer ∧ lexer.Shows (l :: ls) ∧
      ls.length ≤ lexer.cursor.rest.length := by
  obtain ⟨position, rest, q, hscan, hrest⟩ := h.scan_cons file {}
  refine ⟨⟨⟨rest, q⟩, file, ⟨l.kind, position⟩⟩, ?_, shows rfl hrest, hrest.length_le⟩
  simp only [Lexer.ofSource, Cursor.ofSource, String.toList_ofList, hscan]

/-- These marks are no part of a longer one, whatever follows. -/
theorem mark {m : Mark}
    (hm : m ∈ [Mark.leftParen, .rightParen, .leftBracket, .rightBracket, .comma])
    (h : Spells rest ls) : Spells (m.text.toList ++ rest) (.mark m :: ls) := by
  simp only [List.mem_cons, List.not_mem_nil, or_false] at hm
  refine .token (Lexeme.mark m).solid (fun p => ?_) h
  rcases hm with rfl | rfl | rfl | rfl | rfl <;> cases rest <;> exact ⟨_, rfl⟩

theorem keyword (w : Keyword) (hrest : Stops rest) (h : Spells rest ls) :
    Spells (w.text.toList ++ rest) (.keyword w :: ls) := by
  exact .token (Lexeme.keyword w).solid (fun p => ⟨_, kind_keyword w hrest p⟩) h

theorem quoted {s : String} (hs : ∀ c ∈ s.toList, Text.Legible c) (h : Spells rest ls) :
    Spells ((Text.quoted s).toList ++ rest) (.text s :: ls) := by
  have hsolid : Solid (Text.quoted s).toList := by
    rw [Text.quoted, String.toList_append, String.toList_append]
    exact ⟨'"', _, rfl, by decide, by decide⟩
  exact .token hsolid (kind_quoted hs rest) h

end Spells

end Lexeme

/-! ## Data -/

/-- What the text of a value says: void, a truth value, a string, or a list of such. -/
inductive Datum where
  | void
  | bool (b : Bool)
  | text (content : String) (legible : ∀ c ∈ content.toList, Text.Legible c)
  | list (items : List Datum)

namespace Datum

mutual

/-- The characters of a datum. -/
def chars : Datum → List Char
  | .void => ['(', ')']
  | .bool b => (if b then Keyword.trueWord else .falseWord).text.toList
  | .text s _ => (Text.quoted s).toList
  | .list items => '[' :: (List.intercalate [',', ' '] (charsAll items) ++ [']'])

/-- The characters of each of some data. -/
def charsAll : List Datum → List (List Char)
  | [] => []
  | d :: ds => d.chars :: charsAll ds

end

mutual

/-- The tokens of a datum. -/
def lexemes : Datum → List Lexeme
  | .void => Lexeme.parens []
  | .bool b => [.keyword (if b then .trueWord else .falseWord)]
  | .text s _ => [.text s]
  | .list items => Lexeme.between .leftBracket .rightBracket (Lexeme.separated (pieces items))

/-- The tokens of each of some data. -/
def pieces : List Datum → List (List Lexeme)
  | [] => []
  | d :: ds => d.lexemes :: pieces ds

end

mutual

/-- The expression that a datum is. -/
def expr : Datum → Expr
  | .void => .literal .void
  | .bool b => .literal (.bool b)
  | .text s _ => .literal (.text s)
  | .list items => .list (exprs items)

/-- The expressions of some data. -/
def exprs : List Datum → List Expr
  | [] => []
  | d :: ds => d.expr :: exprs ds

end

mutual

/-- The value is what the datum says; its lists may be of any shape. -/
def Describes : Datum → Value → Prop
  | .void, v => v = .void
  | .bool b, v => v = .bool b
  | .text s _, v => v = .text s
  | .list items, v => ∃ xs, v = .list xs ∧ xs.content.Sound ∧ DescribesAll items xs.items

/-- The values are what the data say, one by one. -/
def DescribesAll : List Datum → List Value → Prop
  | [], vs => vs = []
  | d :: ds, vs => ∃ w ws, vs = w :: ws ∧ d.Describes w ∧ DescribesAll ds ws

end

/-! ## The text of a datum is read as its expression -/

theorem lexemes_ne_nil (d : Datum) : d.lexemes ≠ [] := by
  cases d <;> exact List.cons_ne_nil _ _

mutual

theorem spells : (d : Datum) → {rest : List Char} → {ls : List Lexeme} → Scan.Stops rest →
    Lexeme.Spells rest ls → Lexeme.Spells (d.chars ++ rest) (d.lexemes ++ ls)
  | .void, _, _, _, h =>
    .mark (m := .leftParen) (by decide) (.mark (m := .rightParen) (by decide) h)
  | .bool b, _, _, hrest, h => .keyword (if b then .trueWord else .falseWord) hrest h
  | .text _ legible, _, _, _, h => .quoted legible h
  | .list items, rest, ls, _, h => by
    rw [chars, lexemes, Lexeme.between_append, List.cons_append, List.append_assoc]
    exact .mark (m := .leftBracket) (by decide) (spellsAll items h)

theorem spellsAll : (ds : List Datum) → {rest : List Char} → {ls : List Lexeme} →
    Lexeme.Spells rest ls →
    Lexeme.Spells (List.intercalate [',', ' '] (charsAll ds) ++ ([']'] ++ rest))
      (Lexeme.separated (pieces ds) ++ .mark .rightBracket :: ls)
  | [], _, _, h => .mark (m := .rightBracket) (by decide) h
  | [d], rest, _, h => by
    have hstops : Scan.Stops (']' :: rest) := by
      rintro c ⟨⟩
      decide
    rw [charsAll, charsAll, List.intercalate_singleton]
    exact d.spells hstops (.mark (m := .rightBracket) (by decide) h)
  | d :: d' :: ds, rest, ls, h => by
    have hds := spellsAll (d' :: ds) h
    have hstops (cs : List Char) : Scan.Stops (',' :: cs) := by
      rintro c ⟨⟩
      decide
    rw [charsAll, charsAll, List.intercalate_cons_cons, pieces, pieces, Lexeme.separated_cons_cons]
    simp only [List.append_assoc, List.cons_append, List.nil_append]
    rw [charsAll, pieces] at hds
    exact d.spells (hstops _) (.mark (m := .comma) (by decide) (.space hds))

end

/-- What a primary expression is read as is read as an expression two steps up, if nothing goes on
with it. -/
theorem reads_of_primary {steps : Nat} {ls rest : List Lexeme} {e : Expr}
    (h : Parse.Reads (Parse.primary (Parse.grammar steps) steps) ls e rest) (hsteps : 0 < steps)
    (hrest : (next rest).continues = false) :
    Parse.Reads (Parse.expressionIn (steps + 2)) ls e rest := by
  have hsuffix := Token.Kind.isSuffix_of_continues hrest
  have hoperand : Parse.Reads (Parse.operandIn (steps + 1)) ls e rest :=
    .bind h (Parse.suffixes_reads_none (g := Parse.grammar steps) hsteps hsuffix)
  exact Parse.expressionWith_reads_operand (g := Parse.grammar (steps + 1)) hoperand
    (Nat.succ_pos _) hrest

mutual

/-- Two steps for each token of a datum are enough to read it, and one more. -/
theorem reads : (d : Datum) → {steps : Nat} → 2 * d.lexemes.length + 1 ≤ steps →
    {rest : List Lexeme} → (next rest).continues = false →
    Parse.Reads (Parse.expressionIn steps) (d.lexemes ++ rest) d.expr rest
  | .void, _, hsteps, rest, hrest => by
    obtain ⟨n, rfl⟩ := Nat.exists_eq_add_of_le' hsteps
    exact reads_of_primary (Parse.atom_reads (p := .void) rfl _ rest) (by omega) hrest
  | .bool b, _, hsteps, rest, hrest => by
    obtain ⟨n, rfl⟩ := Nat.exists_eq_add_of_le' hsteps
    exact reads_of_primary (Parse.atom_reads (p := .bool b) rfl _ rest) (by omega) hrest
  | .text s _, _, hsteps, rest, hrest => by
    obtain ⟨n, rfl⟩ := Nat.exists_eq_add_of_le' hsteps
    exact reads_of_primary (Parse.atom_reads (p := .text s) rfl _ rest) (by omega) hrest
  | .list items, steps, hsteps, rest, hrest => by
    rw [lexemes, Lexeme.length_between] at hsteps
    obtain ⟨n, rfl⟩ : ∃ n, steps = n + 2 := ⟨steps - 2, by omega⟩
    have hpieces := Lexeme.forall_length_le (Nat.le_refl (Lexeme.separated (pieces items)).length)
    have hroom (piece : List Lexeme) (hpiece : piece ∈ pieces items) :
        2 * piece.length + 1 ≤ n := by
      have hle := hpieces piece hpiece
      omega
    have hitems := readsAll items hroom []
    rw [lexemes, Lexeme.between_append]
    refine reads_of_primary (.bind .kind (.bind (.advance _) ?_)) (by omega) hrest
    exact .bind (hitems.reads (by decide) (by omega) rest) .ret

theorem readsAll : (ds : List Datum) → {steps : Nat} →
    (∀ piece ∈ pieces ds, 2 * piece.length + 1 ≤ steps) → (before : List Expr) →
    Parse.Items .rightBracket (fun _ => Parse.expressionIn steps) before (pieces ds) (exprs ds)
  | [], _, _, before => .nil before
  | d :: ds, steps, hsteps, before => by
    obtain ⟨hd, hds⟩ := List.forall_mem_cons.mp hsteps
    have hstart : (next d.lexemes).isMark .rightBracket = false := by
      cases d with
      | bool b => cases b <;> rfl
      | _ => rfl
    refine .cons d.lexemes_ne_nil hstart (fun rest hnext => ?_) (readsAll ds hds _)
    exact d.reads hd (Parse.continues_of_item (.inr (.inl rfl)) hnext)

end

/-- The text of a datum, taken as an expression. -/
theorem parseExpr_chars (d : Datum) :
    Session.parseExpr (String.ofList d.chars) none = .ok (some d.expr) := by
  have hspells := d.spells Scan.stops_nil .nil
  rw [List.append_nil, List.append_nil] at hspells
  obtain ⟨l, ls, hls⟩ := List.exists_cons_of_ne_nil d.lexemes_ne_nil
  rw [hls] at hspells
  obtain ⟨start, hstart, hshows, hroom⟩ := hspells.exists_shows none
  rw [← hls] at hshows
  have hlength : d.lexemes.length = ls.length + 1 := by rw [hls, List.length_cons]
  have hsteps : 2 * d.lexemes.length + 1 ≤ Parse.stepsFor start := by
    unfold Parse.stepsFor
    omega
  have hends : (next []).continues = false := rfl
  have hreads := d.reads hsteps hends
  rw [List.append_nil] at hreads
  obtain ⟨stop, hstop, hend⟩ := hreads start hshows
  have hkind : Parse.kind stop = .ok .eof stop := congrArg (Outcome.ok · stop) hend
  have hwhole : Parse.wholeExpression start = .ok d.expr stop := by
    rw [Parse.wholeExpression, Run.bind_ok (x := Parse.expression) hstop, Run.bind_ok hkind]
    rfl
  simp only [Session.parseExpr, hstart, Bind.bind, Except.bind, hwhole]
  rfl

/-! ## The expression has a value that the datum describes -/

section

variable (isGlobal : String → Bool) (scopes : Scopes)

mutual

/-- There is nothing to look up in a datum. -/
theorem resolve_expr : (d : Datum) → d.expr.resolve isGlobal scopes = d.expr
  | .void | .bool _ | .text _ _ => rfl
  | .list items => by rw [expr, Expr.resolve, resolveAll_exprs items]

theorem resolveAll_exprs : (ds : List Datum) →
    Expr.resolveAll isGlobal scopes (exprs ds) = exprs ds
  | [] => rfl
  | d :: ds => by rw [exprs, Expr.resolveAll, resolve_expr d, resolveAll_exprs ds]

end

end

section

variable (env : Environment) (invoke : Invoke Cause Closure) (frame : Nat)

mutual

theorem eval_expr : (d : Datum) → (store : Store Closure) →
    ∃ v store', d.expr.eval env invoke frame store = .ok v store' ∧ d.Describes v
  | .void, store => ⟨.void, store, rfl, rfl⟩
  | .bool b, store => ⟨.bool b, store, rfl, rfl⟩
  | .text s _, store => ⟨.text s, store, rfl, rfl⟩
  | .list items, store => by
    obtain ⟨vs, store', hvs, hdescribes⟩ := evalAll_exprs items store
    refine ⟨.list (.ofList store'.nextId vs), store'.fresh.2, ?_, _, rfl, ?_, ?_⟩
    · rw [expr, Expr.eval, Run.bind_ok hvs]
      rfl
    · unfold Sequence.ofList
      split <;> trivial
    · rw [Sequence.items_ofList]
      exact hdescribes

theorem evalAll_exprs : (ds : List Datum) → (store : Store Closure) →
    ∃ vs store', Expr.evalAll env invoke frame (exprs ds) store = .ok vs store' ∧
      DescribesAll ds vs
  | [], store => ⟨[], store, rfl, rfl⟩
  | d :: ds, store => by
    obtain ⟨v, mid, hv, hd⟩ := eval_expr d store
    obtain ⟨vs, store', hvs, hds⟩ := evalAll_exprs ds mid
    refine ⟨v :: vs, store', ?_, v, vs, rfl, hd, hds⟩
    rw [exprs, Expr.evalAll, Run.bind_ok hv, Run.bind_ok hvs]
    rfl

end

end

/-! ## What a datum says of a value -/

mutual

/-- Values that one datum describes are equal. -/
theorem compare_eq : (d : Datum) → {v w : Value} → d.Describes v → d.Describes w →
    v.compare w = some .eq
  | .void, _, _, rfl, rfl => by rw [Value.compare]
  | .bool _, _, _, rfl, rfl => by simp [Value.compare, Value.equalOrNone]
  | .text s _, _, _, rfl, rfl => by rw [Value.compare, Value.compareTexts_self]
  | .list items, _, _, ⟨_, rfl, hx, hxs⟩, ⟨_, rfl, hy, hys⟩ => by
    obtain ⟨c, hc, hiff⟩ := Value.compare_list hx hy
    rw [hc, hiff.mpr (.inr (forall₂_compare items hxs hys))]
    rfl

theorem forall₂_compare : (ds : List Datum) → {vs ws : List Value} → DescribesAll ds vs →
    DescribesAll ds ws → Forall₂ (fun v w => v.compare w = some .eq) vs ws
  | [], _, _, rfl, rfl => .nil
  | d :: ds, _, _, ⟨_, _, rfl, hv, hvs⟩, ⟨_, _, rfl, hw, hws⟩ =>
    .cons (d.compare_eq hv hw) (forall₂_compare ds hvs hws)

end

mutual

/-- The text of a value is that of the datum. -/
theorem shown_eq : (d : Datum) → {v : Value} → d.Describes v → v.shown = String.ofList d.chars
  | .void, _, rfl => by
    change Value.display .void = _
    rw [Value.display]
    rfl
  | .bool b, _, rfl => by
    change Value.display (.bool b) = _
    rw [Value.display]
    cases b <;> rfl
  | .text s _, _, rfl => (String.ofList_toList).symm
  | .list items, _, ⟨xs, rfl, _, hxs⟩ => by
    have hitems := map_shown_eq items hxs
    apply String.toList_injective
    change (Value.display (.list xs)).toList = _
    rw [Value.display_list, String.toList_ofList, chars, ← hitems]
    simp only [String.toList_append, String.toList_intercalate, List.map_map]
    rfl

theorem map_shown_eq : (ds : List Datum) → {vs : List Value} → DescribesAll ds vs →
    vs.map (String.toList ∘ Value.shown) = charsAll ds
  | [], _, rfl => rfl
  | d :: ds, _, ⟨w, ws, rfl, hw, hws⟩ => by
    rw [List.map_cons, map_shown_eq ds hws, Function.comp_apply, d.shown_eq hw,
      String.toList_ofList, charsAll]

end

end Datum

/-! ## Values that can be read back -/

/-- The value is void, a truth value, a string of legible characters, or a list of such values, in
whatever shape lists are made. -/
inductive Value.Legible : Value → Prop
  | void : Legible .void
  | bool (b : Bool) : Legible (.bool b)
  | text {s : String} (h : ∀ c ∈ s.toList, Text.Legible c) : Legible (.text s)
  | list {xs : Sequence Value} (hsound : xs.content.Sound) (hitems : ∀ x ∈ xs.items, Legible x) :
    Legible (.list xs)

namespace Value.Legible

theorem exists_data {vs : List Value} (h : ∀ v ∈ vs, ∃ d : Datum, d.Describes v) :
    ∃ ds, Datum.DescribesAll ds vs := by
  induction vs with
  | nil => exact ⟨[], rfl⟩
  | cons v vs ih =>
    obtain ⟨⟨d, hd⟩, hvs⟩ := List.forall_mem_cons.mp h
    obtain ⟨ds, hds⟩ := ih hvs
    exact ⟨d :: ds, v, vs, rfl, hd, hds⟩

theorem exists_datum {v : Value} (h : v.Legible) : ∃ d : Datum, d.Describes v := by
  induction h with
  | void => exact ⟨.void, rfl⟩
  | bool b => exact ⟨.bool b, rfl⟩
  | text h => exact ⟨.text _ h, rfl⟩
  | list hsound _ ih =>
    obtain ⟨ds, hds⟩ := exists_data ih
    exact ⟨.list ds, _, rfl, hsound, hds⟩

end Value.Legible

namespace Session

/-- The value of a text whose expression has one. -/
theorem evalText_eq_ok {source : String} {e : Expr} {v : Value} {s : Session}
    {store : Store Closure} (hparse : parseExpr source none = .ok (some e))
    (heval : s.env.evaluate (s.env.resolve [] e) s.store = .ok v store) :
    evalText source s = .ok v { s.remember none source with store := store } := by
  rw [evalText_eq, hparse]
  simp only [heval]

/-- The text of a legible list, of whatever shape, nesting and size, is an expression whose value
equals the list, in every session. -/
theorem displayed_list_reads_back {xs : Sequence Value} (h : (Value.list xs).Legible)
    (s : Session) :
    ∃ v t, evalText (Value.list xs).display s = .ok v t ∧ v.equal (.list xs) = true ∧
      (Value.list xs).equal v = true := by
  obtain ⟨d, hd⟩ := h.exists_datum
  have htext : (Value.list xs).display = String.ofList d.chars := d.shown_eq hd
  have hresolve : s.env.resolve [] d.expr = d.expr := d.resolve_expr _ []
  obtain ⟨v, store, heval, hv⟩ := d.eval_expr s.env (Function.invoke s.env callDepth)
    s.store.frames.size (s.store.push #[] none).2
  have hevaluate : s.env.evaluate (s.env.resolve [] d.expr) s.store = .ok v store := by
    rw [hresolve]
    exact heval
  refine ⟨v, _, htext ▸ evalText_eq_ok d.parseExpr_chars hevaluate, ?_, ?_⟩
  · rw [Value.equal, d.compare_eq hv hd]
    rfl
  · rw [Value.equal, d.compare_eq hd hv]
    rfl

/-- A concatenation of a list of four items with a slice of another. -/
def patchwork : Sequence Value :=
  ⟨3, .cat
    (.leaf #[.void, .text "say \"no\"\\\n\t\r", .list .empty,
      .list ⟨2, .leaf #[.bool true, .text "é", .list ⟨1, .leaf #[.void]⟩]⟩])
    (.slice (.leaf (.replicate 11 (.bool false))) 1 10) 13⟩

theorem displayed_list_reads_back_patchwork :
    (Value.list patchwork).Legible ∧
      (Value.list patchwork).display =
        "[(), \"say \\\"no\\\"\\\\\\n\\t\\r\", [], [true, \"é\", [()]], " ++
          "false, false, false, false, false, false, false, false, false]" ∧
      ∃ v t, evalText (Value.list patchwork).display .new = .ok v t ∧
        v.equal (.list patchwork) = true ∧ (Value.list patchwork).equal v = true := by
  have htext {s : String} (h : s.toList.all (fun c => decide (Text.Legible c)) = true) :
      (Value.text s).Legible := .text (by simpa using h)
  have hleaf {id : Nat} {vs : List Value} (h : ∀ v ∈ vs, v.Legible) :
      (Value.list ⟨id, .leaf vs.toArray⟩).Legible :=
    .list trivial (by rwa [Sequence.items, Rope.items_leaf])
  have hitems : patchwork.items = [.void, .text "say \"no\"\\\n\t\r", .list .empty,
      .list ⟨2, .leaf #[.bool true, .text "é", .list ⟨1, .leaf #[.void]⟩]⟩] ++
        List.replicate 9 (.bool false) := rfl
  have hlegible : (Value.list patchwork).Legible := by
    refine .list ⟨rfl, by decide, by decide, by decide, trivial, by decide, by decide, by decide,
      rfl, trivial⟩ ?_
    rw [hitems]
    simp only [List.forall_mem_append, List.forall_mem_cons]
    refine ⟨⟨.void, htext (by decide +kernel), hleaf (by simp), hleaf ?_, by simp⟩, ?_⟩
    · simp only [List.forall_mem_cons]
      exact ⟨.bool true, htext (by decide +kernel), hleaf (by simp [Value.Legible.void]), by simp⟩
    · intro v hv
      rw [List.eq_of_mem_replicate hv]
      exact .bool false
  exact ⟨hlegible, by decide +kernel, displayed_list_reads_back hlegible .new⟩

end Session

end Clausal
