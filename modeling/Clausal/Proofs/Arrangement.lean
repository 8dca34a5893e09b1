import Clausal.Proofs.Pieces
import Clausal.Proofs.Registration

/-!
# The order of declarations

The declarations of a text may be put into another order, as long as those of each function stay in
theirs. The text can be loaded as before, as one group, and every function gets the same clauses.

* `Consists`: the tokens of a text. It is the same to have them all at once or to go over them with
  a lexer (`consists_iff`), and for tokens of texts there is always a text (`exists_consists`).
* `Piece`: a declaration and its tokens. A text of declarations falls into pieces
  (`Parse.exists_pieces`), and pieces in any order are read as their declarations
  (`Parse.declarations_of_passes`).
* `Environment.exists_commit`: the table after a group has taken effect, function by function.
* `Session.declaration_order_is_free`: the result.
-/

namespace Clausal

/-! ## The tokens of a text -/

/-- The kinds of the tokens of a text, without its end. -/
def Consists (text : String) (ks : List Token.Kind) : Prop :=
  ∃ tokens, Token.list text none = .ok tokens ∧ tokens.map (·.kind) = ks ++ [.eof]

namespace Token

variable {file : Option String} {c : Cursor}

theorem eq_eof_of_isEof {k : Token.Kind} (h : k.isEof = true) : k = .eof := by
  cases k with
  | eof => rfl
  | _ => cases h

/-- All tokens from a cursor on can be gone over, one by one. -/
theorem exists_passes {c : Cursor} {tokens : List Token} (h : listFrom file c = .ok tokens) :
    ∃ token next last ks, scan file c = (.ok token, next) ∧
      Lexer.Passes ⟨next, file, token⟩ ks last ∧ last.current.kind = .eof ∧
      tokens.map (·.kind) = ks ++ [.eof] := by
  cases hscan : scan file c with
  | mk found next =>
    cases found with
    | error e =>
      rw [listFrom] at h
      split at h
      · cases h
      · next heq =>
        rw [hscan] at heq
        cases heq
    | ok token =>
      rw [listFrom_eq hscan] at h
      cases hend : token.kind.isEof with
      | true =>
        rw [if_pos hend] at h
        cases h
        have heof := eq_eof_of_isEof hend
        exact ⟨token, next, _, [], rfl, .nil _, heof, by simp [heof]⟩
      | false =>
        rw [if_neg (by simp [hend])] at h
        have hless := scan_length_lt hscan hend
        cases hrest : listFrom file next with
        | error e =>
          rw [hrest] at h
          cases h
        | ok others =>
          rw [hrest] at h
          cases h
          obtain ⟨second, stop, last, ks, hscan', hpasses, hlast, hkinds⟩ := exists_passes hrest
          refine ⟨token, next, last, token.kind :: ks, rfl, ?_, hlast, ?_⟩
          · refine .cons hend ?_ hpasses
            simp only [Lexer.advance, hscan']
          · rw [List.map_cons, hkinds, List.cons_append]
termination_by c.rest.length

/-- Tokens that are gone over one by one are all tokens there are. -/
theorem listFrom_of_passes {first last : Lexer} {ks : List Token.Kind}
    (hscan : scan first.file c = (.ok first.current, first.cursor)) (h : first.Passes ks last)
    (hlast : last.current.kind = .eof) :
    ∃ tokens, listFrom first.file c = .ok tokens ∧ tokens.map (·.kind) = ks ++ [.eof] := by
  induction h generalizing c with
  | nil lexer =>
    refine ⟨[lexer.current], ?_, by simp [hlast]⟩
    rw [listFrom_eq hscan, hlast]
    rfl
  | @cons first next last ks hend hnext _ ih =>
    rw [Lexer.advance] at hnext
    split at hnext
    · next token cursor hscan' =>
      cases hnext
      obtain ⟨tokens, htokens, hkinds⟩ := ih hscan' hlast
      refine ⟨first.current :: tokens, ?_, by rw [List.map_cons, hkinds, List.cons_append]⟩
      rw [listFrom_eq hscan, if_neg (by rw [hend]; decide), htokens]
      rfl
    · cases hnext

end Token

theorem consists_iff {text : String} {ks : List Token.Kind} :
    Consists text ks ↔ ∃ first last, Lexer.ofSource text none = .ok first ∧
      first.Passes ks last ∧ last.current.kind = .eof := by
  constructor
  · rintro ⟨tokens, htokens, hkinds⟩
    obtain ⟨token, next, last, ks', hscan, hpasses, hlast, hkinds'⟩ := Token.exists_passes htokens
    rw [hkinds, List.append_cancel_right_eq] at hkinds'
    refine ⟨_, last, ?_, by rwa [hkinds'], hlast⟩
    simp only [Lexer.ofSource, hscan]
  · rintro ⟨first, last, hfirst, hpasses, hlast⟩
    rw [Lexer.ofSource] at hfirst
    split at hfirst
    · next token cursor hscan =>
      cases hfirst
      exact Token.listFrom_of_passes hscan hpasses hlast
    · cases hfirst

/-! ## Texts for tokens -/

/-- Some characters are read as a token of this kind wherever nothing follows that could belong to
it. -/
def Spelt (k : Token.Kind) : Prop :=
  ∃ chars, Solid chars ∧ ∀ rest, Scan.Breaks rest → ∀ p, ∃ q,
    Scan.kind ⟨chars ++ rest, p⟩ = (.ok k, ⟨rest, q⟩)

theorem Laid.spelt {file : Option String} {p : Place} {words : List (List Char)} {cs : List Char}
    {tokens : List Token} (h : Laid file p words cs tokens) :
    ∀ token ∈ tokens, token.kind = .eof ∨ Spelt token.kind := by
  induction h with
  | done => simp
  | token _ hchars hkind _ ih =>
    refine List.forall_mem_cons.mpr ⟨.inr ⟨_, hchars, fun rest hrest p => ?_⟩, ih⟩
    exact Scan.kind_replaces hchars.ne_nil hkind (.breaks hrest) p

/-- The tokens of a text can be spelt. -/
theorem Consists.spelt {text : String} {ks : List Token.Kind} (h : Consists text ks) :
    ∀ k ∈ ks, Spelt k := by
  intro k hk
  obtain ⟨first, last, -, hpasses, -⟩ := consists_iff.mp h
  obtain ⟨tokens, htokens, hkinds⟩ := h
  obtain ⟨words, hlaid⟩ := Token.exists_laid htokens
  have hmem : k ∈ tokens.map (·.kind) := by
    rw [hkinds]
    exact List.mem_append_left _ hk
  obtain ⟨token, htoken, rfl⟩ := List.mem_map.mp hmem
  refine (hlaid.spelt token htoken).resolve_left fun heof => ?_
  have hnot := hpasses.isEof_of_mem hk
  rw [heof] at hnot
  cases hnot

/-- For tokens that can be spelt there is a text. -/
theorem exists_consists {ks : List Token.Kind} (h : ∀ k ∈ ks, Spelt k) :
    ∃ text, Consists text ks := by
  -- a space in front of every token keeps it from the one before
  have hchars : ∃ cs, Scan.Breaks cs ∧ ∀ p, ∃ tokens, Token.listFrom none ⟨cs, p⟩ = .ok tokens ∧
      tokens.map (·.kind) = ks ++ [.eof] := by
    induction ks with
    | nil => exact ⟨[], Scan.breaks_nil, fun p => ⟨_, Token.listFrom_ending (.trivia .nil), rfl⟩⟩
    | cons k ks ih =>
      obtain ⟨⟨chars, hsolid, hkind⟩, hks⟩ := List.forall_mem_cons.mp h
      obtain ⟨cs, hbreaks, hcs⟩ := ih hks
      refine ⟨[' '] ++ (chars ++ cs), Scan.breaks_space _, fun p => ?_⟩
      obtain ⟨q, hq⟩ := hkind cs hbreaks (p.afterAll [' '])
      obtain ⟨tokens, htokens, hkinds⟩ := hcs q
      have hlist : Token.listFrom none ⟨[' '] ++ (chars ++ cs), p⟩ = _ :=
        Token.listFrom_token (.blank (by decide) .nil) hsolid hq
      rw [htokens] at hlist
      refine ⟨_, hlist, ?_⟩
      rw [List.map_cons, hkinds, List.cons_append]
  obtain ⟨cs, -, hcs⟩ := hchars
  refine ⟨String.ofList cs, ?_⟩
  obtain ⟨tokens, htokens⟩ := hcs {}
  refine ⟨tokens, ?_⟩
  rwa [Token.list, Cursor.ofSource, String.toList_ofList]

/-! ## Declarations and their tokens -/

/-- A declaration in a text. -/
structure Piece where
  tokens : List Token.Kind
  declaration : Declaration

/-- The declaration is read wherever the tokens stand before another declaration or the end. -/
def Piece.Sound (isNative : String → Bool) (piece : Piece) : Prop :=
  ∀ first last : Lexer, first.Passes piece.tokens last → last.current.kind.Border →
    Parse.declaration isNative first = .ok piece.declaration last

namespace Parse

variable {isNative : String → Bool} {first last : Lexer} {steps : Nat} {group : List Declaration}

theorem declarations_border (h : declarations isNative steps first = .ok group last)
    (hlast : last.current.kind = .eof) : first.current.kind.Border := by
  rcases declarations_first h hlast with ⟨heof, -⟩ | hlet
  · rw [heof]
    exact .eof
  · rw [hlet]
    exact .letWord

/-- A declaration begins with its word. -/
theorem declaration_first {d : Declaration} (h : declaration isNative first = .ok d last) :
    first.current.kind.isKeyword .letWord = true := by
  obtain ⟨_, mid, hword, -⟩ := Run.bind_eq_ok_iff.mp h
  exact (expectWord_eq_ok.mp hword).1

/-- Declarations up to the end of a text are pieces of it, one behind the other. -/
theorem exists_pieces (h : declarations isNative steps first = .ok group last)
    (hlast : last.current.kind = .eof) :
    ∃ pieces : List Piece, pieces.map (·.declaration) = group ∧
      (∀ piece ∈ pieces, piece.Sound isNative) ∧
      first.Passes (pieces.flatMap (·.tokens)) last := by
  induction steps generalizing first group with
  | zero => cases h
  | succ steps ih =>
    rw [declarations_succ] at h
    split at h
    · obtain ⟨d, mid, hd, hrest⟩ := Run.bind_eq_ok_iff.mp h
      obtain ⟨ds, stop, hds, hstop⟩ := Run.bind_eq_ok_iff.mp hrest
      cases hstop
      obtain ⟨pieces, rfl, hsound, hpasses⟩ := ih hds
      obtain ⟨ks, hks, hread⟩ := declaration_reads_again hd
      refine ⟨⟨ks, d⟩ :: pieces, rfl, List.forall_mem_cons.mpr ⟨?_, hsound⟩, hks.append hpasses⟩
      intro second last' hsecond hborder
      exact hread second last' hsecond (.inr ⟨declarations_border hds hlast, hborder⟩)
    · cases h
      exact ⟨[], rfl, List.forall_mem_nil _, .nil _⟩

/-- Pieces are read as their declarations. -/
theorem declarations_of_passes {pieces : List Piece}
    (hsound : ∀ piece ∈ pieces, piece.Sound isNative)
    (h : first.Passes (pieces.flatMap (·.tokens)) last) (hlast : last.current.kind = .eof) :
    declarations isNative (pieces.length + 1) first = .ok (pieces.map (·.declaration)) last := by
  induction pieces generalizing first with
  | nil =>
    obtain rfl := h.eq_of_nil
    exact declarations_of_not_let (by rw [hlast]; rfl) 0
  | cons piece pieces ih =>
    obtain ⟨hpiece, hpieces⟩ := List.forall_mem_cons.mp hsound
    obtain ⟨mid, hmid, hrest⟩ := h.split
    have hds := ih hpieces hrest
    have hd := hpiece first mid hmid (declarations_border hds hlast)
    rw [List.length_cons, declarations_succ, if_pos (declaration_first hd), Run.bind_ok hd,
      Run.bind_ok hds]
    rfl

end Parse

/-- A text holds the declarations that it holds. -/
theorem Declares.unique {isNative : String → Bool} {text : String} {group other : List Declaration}
    (h : Declares isNative text group) (h' : Declares isNative text other) : other = group := by
  rcases h.statements_eq with ⟨hnone, rfl⟩ | hone <;>
    rcases h'.statements_eq with ⟨hnone', rfl⟩ | hone'
  · rfl
  · simp [hnone] at hone'
  · simp [hone] at hnone'
  · rw [hone] at hone'
    cases hone'
    rfl

/-- A text of declarations is the tokens of its declarations. -/
theorem Declares.exists_pieces {isNative : String → Bool} {text : String}
    {group : List Declaration} (h : Declares isNative text group) :
    ∃ pieces : List Piece, pieces.map (·.declaration) = group ∧
      (∀ piece ∈ pieces, piece.Sound isNative) ∧ Consists text (pieces.flatMap (·.tokens)) := by
  obtain ⟨first, steps, last, hfirst, hrun, hlast⟩ := h
  obtain ⟨pieces, hgroup, hsound, hpasses⟩ := Parse.exists_pieces hrun hlast
  exact ⟨pieces, hgroup, hsound, consists_iff.mpr ⟨first, last, hfirst, hpasses, hlast⟩⟩

theorem Consists.declares {isNative : String → Bool} {text : String} {pieces : List Piece}
    (hsound : ∀ piece ∈ pieces, piece.Sound isNative)
    (h : Consists text (pieces.flatMap (·.tokens))) :
    Declares isNative text (pieces.map (·.declaration)) := by
  obtain ⟨first, last, hfirst, hpasses, hlast⟩ := consists_iff.mp h
  exact ⟨first, _, last, hfirst, Parse.declarations_of_passes hsound hpasses hlast, hlast⟩

/-! ## Other orders -/

/-- The same items in another order, in which those of each name stand as they did. -/
structure Rearranges {α : Type} (name : α → String) (order items : List α) : Prop where
  perm : order.Perm items
  within : ∀ n, order.filter (name · == n) = items.filter (name · == n)

namespace Rearranges

variable {α β : Type} {name : α → String} {order items : List α}

theorem map {name : β → String} {f : α → β} (h : Rearranges (fun a => name (f a)) order items) :
    Rearranges name (order.map f) (items.map f) := by
  refine ⟨h.perm.map f, fun n => ?_⟩
  rw [List.filter_map, List.filter_map]
  exact congrArg (List.map f) (h.within n)

/-- Items of different names may stand in any order. -/
theorem of_nodup (hperm : order.Perm items) (h : (items.map name).Nodup) :
    Rearranges name order items := by
  refine ⟨hperm, fun n => ?_⟩
  have hfilter := hperm.filter (name · == n)
  have hname : ∀ a ∈ items.filter (name · == n), name a = n := fun a ha => by
    simpa using (List.mem_filter.mp ha).2
  have hnodup : ((items.filter (name · == n)).map name).Nodup :=
    (List.filter_sublist.map name).nodup h
  -- there is at most one of the name
  match heq : items.filter (name · == n) with
  | [] => rwa [heq, List.perm_nil] at hfilter
  | [a] => rwa [heq, List.perm_singleton] at hfilter
  | a :: b :: rest =>
    rw [heq] at hname hnodup
    have hab : name a = name b := (hname a (.head _)).trans (hname b (.tail _ (.head _))).symm
    simp [hab] at hnodup

/-- If no two names are asked for, then those asked for stand as they did. -/
theorem filter_eq (h : Rearranges name order items) (asked : String → Bool)
    (hone : ∀ a ∈ items, ∀ b ∈ items, asked (name a) = true → asked (name b) = true →
      name a = name b) :
    (order.filter fun a => asked (name a)) = items.filter fun a => asked (name a) := by
  by_cases hany : ∃ a ∈ items, asked (name a) = true
  · obtain ⟨a, ha, hasked⟩ := hany
    have hname : ∀ b ∈ items, asked (name b) = (name b == name a) := by
      intro b hb
      rw [Bool.eq_iff_iff, beq_iff_eq]
      refine ⟨fun hb' => hone b hb a ha hb' hasked, fun heq => ?_⟩
      rw [heq, hasked]
    rw [List.filter_congr hname, ← h.within]
    exact List.filter_congr fun b hb => hname b (h.perm.mem_iff.mp hb)
  · have hnone : ∀ a ∈ items, ¬ asked (name a) = true := fun a ha hasked => hany ⟨a, ha, hasked⟩
    rw [List.filter_eq_nil_iff.mpr hnone, List.filter_eq_nil_iff]
    exact fun a ha => hnone a (h.perm.mem_iff.mp ha)

end Rearranges

/-! ## The table -/

/-- The clauses of a group for the names that are asked for. -/
def clausesFor (known : String → Bool) (group : List Declaration) (asked : String → Bool) :
    List Clause :=
  (group.filter fun d => asked d.name).map (·.clause.resolve known [])

namespace Environment

variable {env : Environment} {group order : List Declaration}

/-- Of the functions that were there before a group took effect, each keeps its slot, and a new one
stands behind them. -/
theorem slotOf_commit_of_lt {slot : Nat} (hslot : slot < env.definitions.length) (name : String) :
    (env.commit group).slotOf name = slot ↔ env.slotOf name = slot := by
  obtain ⟨fresh, -, -, htable⟩ := env.exists_declareAll group
  rw [slotOf_congr (env.names_commit group)]
  cases hname : env.contains name with
  | true => rw [slotOf_append htable hname]
  | false =>
    have hold : ¬ env.slotOf name < env.definitions.length := by
      rw [← contains_iff_slotOf, hname]
      exact Bool.false_ne_true
    have hnew : env.definitions.length ≤ (env.declareAll group).slotOf name := by
      rw [slotOf, htable, List.findIdx_append]
      split
      · next hlt => exact absurd hlt hold
      · omega
    omega

/-- A new function stands where its name is mentioned first. -/
theorem slotOf_commit_fresh {fresh : List String} (hnodup : fresh.Nodup)
    (hfresh : ∀ n ∈ fresh, n ∉ env.names)
    (htable : (env.declareAll group).definitions = env.definitions ++ fresh.map (.declared · []))
    {i : Nat} {n : String} (hi : fresh[i]? = some n) :
    (env.commit group).slotOf n = i + env.definitions.length := by
  have hnames : (env.commit group).names = env.names ++ fresh := by
    rw [names_commit, names, htable, List.map_append, List.map_map]
    congr 1
    exact List.map_id' fresh
  obtain ⟨hlt, rfl⟩ := List.getElem?_eq_some_iff.mp hi
  have hidx : (env.commit group).slotOf fresh[i] = (env.names ++ fresh).idxOf fresh[i] := by
    rw [slotOf_eq_names, hnames]
    rfl
  rw [hidx, List.idxOf_append_of_notMem (hfresh _ (List.getElem_mem hlt)),
    hnodup.idxOf_getElem i hlt, names, List.length_map, Nat.add_comm]

/-- The table after a group has taken effect. Each function that was there keeps its slot, and the
new ones stand behind them, one for each new name. -/
theorem exists_commit (env : Environment) (group : List Declaration) :
    ∃ fresh : List String, fresh.Nodup ∧
      (∀ n, n ∈ fresh ↔ n ∉ env.names ∧ n ∈ group.map (·.name)) ∧
      (env.commit group).definitions =
        (env.definitions.mapIdx fun slot d =>
          d.append (clausesFor (env.commit group).contains group (env.slotOf · == slot))) ++
        fresh.map fun n =>
          .declared n (clausesFor (env.commit group).contains group (· == n)) := by
  obtain ⟨fresh, hnodup, hfresh, htable⟩ := env.exists_declareAll group
  refine ⟨fresh, hnodup, fun n => ⟨hfresh n, fun ⟨hnew, hn⟩ => ?_⟩, ?_⟩
  · have hmem := (env.mem_names_declareAll group).mpr (.inr hn)
    rw [names, htable, List.map_append, List.map_map, List.mem_append] at hmem
    rcases hmem with hold | hmem
    · exact absurd hold hnew
    · simpa [Function.comp_def, Definition.name] using hmem
  · rw [commit_definitions, htable, List.mapIdx_append]
    congr 1
    · apply List.ext_getElem?
      intro slot
      rw [List.getElem?_mapIdx, List.getElem?_mapIdx]
      cases hd : env.definitions[slot]? with
      | none => rfl
      | some d =>
        obtain ⟨hslot, -⟩ := List.getElem?_eq_some_iff.mp hd
        simp only [Option.map_some, given, clausesFor]
        congr 4
        funext e
        rw [Bool.eq_iff_iff, beq_iff_eq, beq_iff_eq]
        exact slotOf_commit_of_lt hslot e.name
    · apply List.ext_getElem?
      intro i
      rw [List.getElem?_mapIdx, List.getElem?_map, List.getElem?_map]
      cases hi : fresh[i]? with
      | none => rfl
      | some n =>
        have hslot := slotOf_commit_fresh hnodup (fun n hn => (hfresh n hn).1) htable hi
        simp only [Option.map_some, given, clausesFor, Definition.append, List.nil_append]
        congr 3
        refine List.filter_congr fun e he => ?_
        have hcontains : (env.commit group).contains e.name = true := by
          rw [contains_congr (env.names_commit group)]
          exact contains_declareAll he
        rw [Bool.eq_iff_iff, beq_iff_eq, beq_iff_eq, ← hslot, slotOf_inj hcontains]

/-- The same functions with the same clauses, of which the first so many have the same slots. -/
structure Agrees (env : Environment) (count : Nat) (env' : Environment) : Prop where
  old : env'.definitions.take count = env.definitions.take count
  fresh : (env'.definitions.drop count).Perm (env.definitions.drop count)
  clauses : ∀ name, env'.clausesOf name = env.clausesOf name

theorem contains_commit_rearranged (h : Rearranges (·.name) order group) :
    (env.commit order).contains = (env.commit group).contains := by
  simp only [contains_commit, h.perm.any_eq]

/-- A group in another order has the same effect, except that new functions may come in another
order. -/
theorem agrees_commit (hgroup : ∀ d ∈ group, env.isNative d.name = false)
    (h : Rearranges (·.name) order group) :
    (env.commit group).Agrees env.definitions.length (env.commit order) := by
  have hknown : (env.commit order).contains = _ := contains_commit_rearranged h
  obtain ⟨fresh, hnodup, hfresh, htable⟩ := env.exists_commit group
  obtain ⟨fresh', hnodup', hfresh', htable'⟩ := env.exists_commit order
  have hlength (f : Nat → Definition → Definition) :
      (env.definitions.mapIdx f).length = env.definitions.length := List.length_mapIdx
  refine ⟨?_, ?_, fun name => ?_⟩
  · rw [htable, htable', List.take_left' (hlength _), List.take_left' (hlength _), hknown]
    apply List.ext_getElem?
    intro slot
    rw [List.getElem?_mapIdx, List.getElem?_mapIdx]
    cases hd : env.definitions[slot]? with
    | none => rfl
    | some d =>
      obtain ⟨hslot, -⟩ := List.getElem?_eq_some_iff.mp hd
      -- a slot that is taken belongs to one name only
      have hfilter := h.filter_eq (env.slotOf · == slot) fun a _ b _ ha hb => by
        rw [beq_iff_eq] at ha hb
        exact (slotOf_inj (contains_iff_slotOf.mpr (by omega))).mp (ha.trans hb.symm)
      simp only [Option.map_some, clausesFor, hfilter]
  · rw [htable, htable', List.drop_left' (hlength _), List.drop_left' (hlength _), hknown]
    have hnames : fresh'.Perm fresh := by
      refine (List.perm_ext_iff_of_nodup hnodup' hnodup).mpr fun n => ?_
      rw [hfresh, hfresh', (h.perm.map _).mem_iff]
    simp only [clausesFor, h.within]
    exact hnames.map _
  · have horder : ∀ d ∈ order, env.isNative d.name = false := fun d hd =>
      hgroup d (h.perm.mem_iff.mp hd)
    rw [clausesOf_commit hgroup, clausesOf_commit horder, h.within, hknown]

end Environment

/-! ## Both together -/

namespace Session

/-- The order of declarations matters only for each function. A text of declarations that can be
loaded is the tokens of its declarations, one behind the other. Whenever these are put into another
order that leaves those of each name in theirs, there is a text for it, and whatever this text is,
it can be loaded as one group. The functions are the same then, with the same clauses, and the
functions that were there before have kept their places. -/
theorem declaration_order_is_free {fs : FileSystem} {text : String} {s t : Session}
    (honly : (Script.ofSource s.env.isNative text none).OnlyDeclares)
    (hload : loadText fs text s = .ok () t) :
    ∃ pieces : List Piece, Consists text (pieces.flatMap (·.tokens)) ∧
      Declares s.env.isNative text (pieces.map (·.declaration)) ∧
      (∀ piece ∈ pieces, ∀ other, Consists other piece.tokens →
        Declares s.env.isNative other [piece.declaration]) ∧
      ∀ order, Rearranges (·.declaration.name) order pieces →
        (∃ other, Consists other (order.flatMap (·.tokens))) ∧
        ∀ other, Consists other (order.flatMap (·.tokens)) →
          Declares s.env.isNative other (order.map (·.declaration)) ∧
          ∃ u, loadText fs other s = .ok () u ∧
            u.env = s.env.commit (order.map (·.declaration)) ∧
            t.env.Agrees s.env.definitions.length u.env := by
  obtain ⟨group, hgroup, ht, -⟩ := exists_declares honly hload
  obtain ⟨pieces, rfl, hsound, hconsists⟩ := hgroup.exists_pieces
  refine ⟨pieces, hconsists, hgroup, fun piece hpiece other hother => ?_, fun order horder => ?_⟩
  · have hone : ∀ p ∈ [piece], p.Sound s.env.isNative :=
      List.forall_mem_singleton.mpr (hsound piece hpiece)
    refine Consists.declares hone ?_
    rwa [List.flatMap_singleton]
  · refine ⟨exists_consists fun k hk => hconsists.spelt k ?_, fun other hother => ?_⟩
    · exact (horder.perm.flatMap_right _).mem_iff.mp hk
    have hdeclares : Declares s.env.isNative other (order.map (·.declaration)) :=
      hother.declares fun piece hpiece => hsound piece (horder.perm.mem_iff.mp hpiece)
    refine ⟨hdeclares, _, loadText_eq hdeclares, rfl, ?_⟩
    obtain ⟨lexer, steps, stop, -, hrun, -⟩ := hgroup
    rw [ht]
    exact Environment.agrees_commit
      (Parse.declarations_names s.env.isNative steps lexer _ stop hrun) horder.map

/-- Two functions that call each other, the other way round. -/
theorem declaration_order_is_free_pair :
    ∃ t other u, loadText (.ofFiles "/" []) "let f(x) = g(x) let g(x) = f(x)" .new = .ok () t ∧
      loadText (.ofFiles "/" []) other .new = .ok () u ∧
      t.env.names = Session.new.env.names ++ ["f", "g"] ∧
      u.env.names = Session.new.env.names ++ ["g", "f"] ∧
      u.env.clausesOf "f" = t.env.clausesOf "f" ∧ u.env.clausesOf "g" = t.env.clausesOf "g" := by
  have hnames : (declarations? Session.new.env.isNative "let f(x) = g(x) let g(x) = f(x)").map
      (fun group => (group.map (·.name), (Session.new.env.commit group).names,
        (Session.new.env.commit group.reverse).names)) =
      some (["f", "g"], Session.new.env.names ++ ["f", "g"],
        Session.new.env.names ++ ["g", "f"]) := by
    decide +kernel
  obtain ⟨group, hgroup, hnames⟩ := Option.map_eq_some_iff.mp hnames
  obtain ⟨hgroup', hpair⟩ := Prod.mk.inj hnames
  obtain ⟨hbefore, hafter⟩ := Prod.mk.inj hpair
  have hdeclares := declares_of_declarations? hgroup
  have hload : loadText (.ofFiles "/" []) _ .new = _ := loadText_eq hdeclares
  obtain ⟨pieces, -, hpieces, -, hrest⟩ := declaration_order_is_free hdeclares.only hload
  have hsame : pieces.map (·.declaration) = group := hdeclares.unique hpieces
  have horder : Rearranges (·.declaration.name) pieces.reverse pieces := by
    refine .of_nodup pieces.reverse_perm ?_
    have hnames : pieces.map (·.declaration.name) = group.map (·.name) := by
      rw [← hsame, List.map_map]
      rfl
    rw [hnames, hgroup']
    decide
  obtain ⟨⟨other, hother⟩, hloads⟩ := hrest pieces.reverse horder
  obtain ⟨-, u, hu, hcommit, hagrees⟩ := hloads other hother
  refine ⟨_, other, u, hload, hu, hbefore, ?_, hagrees.clauses "f", hagrees.clauses "g"⟩
  rw [hcommit, List.map_reverse, hsame]
  exact hafter

end Session

end Clausal
