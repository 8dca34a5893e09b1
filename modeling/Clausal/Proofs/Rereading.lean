import Clausal.Proofs.Progress

/-!
# Reading the same tokens elsewhere

What a parser reads depends on the tokens it passes over and on the one it stops at, whatever else
there is in the source and wherever in it they stand. Of the token it stops at, no parser of a
declaration tells apart the end of the source and the word `let`, with which the next declaration
begins.

* `Lexer.Passes first ks last`: from `first` to `last` there are tokens of the kinds `ks`.
* `Parse.Rereads x y first`: if `x` reads something from `first`, then from any other lexer before
  tokens of the same kinds `y` reads the same, up to the corresponding place. Here `y` is `x` with
  another number of steps, so it may run out of them.
* `Parse.declaration_reads_again`: there is a rule for each primitive and one lemma per parser; the
  two that refer back to each other are settled by induction on the steps
  (`Parse.grammar_rereads`).
-/

namespace Clausal

/-! ## Tokens passed over -/

namespace Token.Kind

/-- The end of a source, or the word that begins a declaration. -/
inductive Border : Token.Kind → Prop
  | eof : Border .eof
  | letWord : Border (.keyword .letWord)

/-- What no parser of a declaration tells apart where it stops. -/
def Alike (k k' : Token.Kind) : Prop := k' = k ∨ k.Border ∧ k'.Border

variable {k k' : Token.Kind}

/-- A function of tokens that does not tell borders apart. -/
theorem Alike.congr {α : Type} {f : Token.Kind → α} (h : k.Alike k')
    (hf : f .eof = f (.keyword .letWord)) : f k' = f k := by
  rcases h with rfl | ⟨hk, hk'⟩
  · rfl
  · cases hk with
    | eof =>
      cases hk' with
      | eof => rfl
      | letWord => exact hf.symm
    | letWord =>
      cases hk' with
      | eof => exact hf
      | letWord => rfl

end Token.Kind

namespace Lexer

/-- Going on from a token leaves less. -/
theorem left_lt {first next : Lexer} (hend : first.current.kind.isEof = false)
    (hnext : Lexer.advance first = .ok () next) : next.left < first.left := by
  have hhalts := Parse.Halts.advance hend
  have hrun : Parse.advance first = .ok () next := hnext
  rwa [Parse.Halts, hrun] at hhalts

/-- Going on from the first lexer over tokens of these kinds leads to the last one. -/
inductive Passes : Lexer → List Token.Kind → Lexer → Prop
  | nil (lexer : Lexer) : Passes lexer [] lexer
  | cons {first next last : Lexer} {ks : List Token.Kind}
    (hend : first.current.kind.isEof = false) (hnext : Lexer.advance first = .ok () next)
    (h : Passes next ks last) : Passes first (first.current.kind :: ks) last

namespace Passes

variable {first mid last second last' : Lexer} {ks ks' : List Token.Kind} {k : Token.Kind}

theorem append (h : first.Passes ks mid) (h' : mid.Passes ks' last) :
    first.Passes (ks ++ ks') last := by
  induction h with
  | nil => exact h'
  | cons hend hnext _ ih => exact .cons hend hnext (ih h')

theorem split (h : first.Passes (ks ++ ks') last) :
    ∃ mid, first.Passes ks mid ∧ mid.Passes ks' last := by
  induction ks generalizing first with
  | nil => exact ⟨first, .nil first, h⟩
  | cons k ks ih =>
    cases h with
    | cons hend hnext h =>
      obtain ⟨mid, hmid, hlast⟩ := ih h
      exact ⟨mid, .cons hend hnext hmid, hlast⟩

theorem eq_of_nil (h : first.Passes [] last) : last = first := by
  cases h
  rfl

theorem kind_eq (h : first.Passes (k :: ks) last) : first.current.kind = k := by
  cases h
  rfl

theorem next (h : first.Passes (k :: ks) last) :
    ∃ next, Lexer.advance first = .ok () next ∧ next.Passes ks last := by
  cases h with
  | cons _ hnext h => exact ⟨_, hnext, h⟩

theorem isEof_of_mem (h : first.Passes ks last) (hk : k ∈ ks) : k.isEof = false := by
  induction h with
  | nil => cases hk
  | cons hend _ _ ih =>
    rcases List.mem_cons.mp hk with rfl | hk
    · exact hend
    · exact ih hk

theorem left_le (h : first.Passes ks last) : last.left ≤ first.left := by
  induction h with
  | nil => exact Nat.le_refl _
  | cons hend hnext _ ih => exact Nat.le_of_lt (Nat.lt_of_le_of_lt ih (left_lt hend hnext))

/-- The way from one lexer to another is the only one. -/
theorem unique (h : first.Passes ks last) (h' : first.Passes ks' last) : ks' = ks := by
  induction h generalizing ks' with
  | nil lexer =>
    cases h' with
    | nil => rfl
    | cons hend hnext h' =>
      have hless := left_lt hend hnext
      have hle := h'.left_le
      omega
  | cons hend hnext h ih =>
    cases h' with
    | nil =>
      have hless := left_lt hend hnext
      have hle := h.left_le
      omega
    | cons _ hnext' h' =>
      rw [hnext] at hnext'
      cases hnext'
      rw [ih h']

/-- Two lexers before tokens of the same kinds stand on tokens that are alike. -/
theorem alike (h : first.Passes ks last) (h' : second.Passes ks last')
    (hlast : last.current.kind.Alike last'.current.kind) :
    first.current.kind.Alike second.current.kind := by
  cases ks with
  | nil => rwa [h.eq_of_nil, h'.eq_of_nil] at hlast
  | cons k ks => exact .inl (h'.kind_eq.trans h.kind_eq.symm)

end Passes

end Lexer

namespace Parse

variable {α β : Type}

/-- What `x` reads from the first lexer, passing over some tokens, `y` reads from every lexer before
tokens of the same kinds, unless it runs out of steps. -/
def Rereads (x y : Parse α) (first : Lexer) : Prop :=
  ∀ a last, x first = .ok a last → ∃ ks, first.Passes ks last ∧
    ∀ second last', second.Passes ks last' → last.current.kind.Alike last'.current.kind →
      y second = .exhausted ∨ y second = .ok a last'

namespace Rereads

variable {x y : Parse α} {f g : α → Parse β} {first : Lexer}

theorem ret (a : α) : Rereads (pure a) (pure a) first := by
  intro b last hrun
  cases hrun
  refine ⟨[], .nil first, fun second last' h _ => .inr ?_⟩
  rw [h.eq_of_nil]
  rfl

theorem bind (hx : Rereads x y first) (hf : ∀ a mid, Rereads (f a) (g a) mid) :
    Rereads (x >>= f) (y >>= g) first := by
  intro b last hrun
  obtain ⟨a, mid, ha, hb⟩ := Run.bind_eq_ok_iff.mp hrun
  obtain ⟨ks, hks, hy⟩ := hx a mid ha
  obtain ⟨ks', hks', hg⟩ := hf a mid b last hb
  refine ⟨ks ++ ks', hks.append hks', fun second last' h hlast => ?_⟩
  obtain ⟨mid', hmid, hrest⟩ := h.split
  obtain hout | ha' := hy second mid' hmid (hks'.alike hrest hlast)
  · exact .inl (Run.bind_exhausted hout)
  · rw [Run.bind_ok ha']
    exact hg mid' last' hrest hlast

/-- A parser that gives no value has nothing to be read again. -/
theorem of_fails (h : ∀ a last, x first ≠ .ok a last) : Rereads x y first :=
  fun a last hrun => absurd hrun (h a last)

theorem unexpected {wanted : Expectation} : Rereads (Parse.unexpected wanted) y first :=
  of_fails fun _ _ => nofun

theorem unexpected_bind {wanted : Expectation} {y : Parse β} :
    Rereads (Parse.unexpected wanted >>= f) y first :=
  of_fails fun _ _ => nofun

theorem fail {e : Error} : Rereads (Run.fail e) y first := of_fails fun _ _ => nofun

theorem fail_bind {e : Error} {y : Parse β} : Rereads ((Run.fail e : Parse α) >>= f) y first :=
  of_fails fun _ _ => nofun

theorem exhaust : Rereads Run.exhaust y first := of_fails fun _ _ => nofun

/-- A parser without steps reads nothing else. -/
theorem without_steps {z : Parse α} (h : Rereads x y first) (hz : ∀ second, z second = .exhausted) :
    Rereads x z first := by
  intro a last hrun
  obtain ⟨ks, hks, -⟩ := h a last hrun
  exact ⟨ks, hks, fun second _ _ _ => .inl (hz second)⟩

/-- A token that is read is another lexer's token too. -/
theorem advance (hend : first.current.kind.isEof = false) :
    Rereads Parse.advance Parse.advance first := by
  intro _ last hrun
  refine ⟨_, .cons hend hrun (.nil last), fun second last' h _ => .inr ?_⟩
  obtain ⟨next, hnext, hlast⟩ := h.next
  rw [hlast.eq_of_nil]
  exact hnext

/-- Going by the token, if borders are not told apart. -/
theorem kind {f g : Token.Kind → Parse α} (hg : g .eof = g (.keyword .letWord))
    (h : ∀ k, first.current.kind = k → Rereads (f k) (g k) first) :
    Rereads (Parse.kind >>= f) (Parse.kind >>= g) first := by
  intro a last hrun
  obtain ⟨ks, hks, hrest⟩ := h _ rfl a last hrun
  refine ⟨ks, hks, fun second last' h' hlast => ?_⟩
  have hy : (Parse.kind >>= g) second = g first.current.kind second := by
    rw [← (hks.alike h' hlast).congr hg]
    rfl
  rw [hy]
  exact hrest second last' h' hlast

/-- Going by what is read off the token. -/
theorem read {γ : Type} {f g : γ → Parse α} {r : Token.Kind → γ}
    (hr : r .eof = r (.keyword .letWord))
    (h : ∀ c, r first.current.kind = c → Rereads (f c) (g c) first) :
    Rereads (Run.read (fun lexer => r lexer.current.kind) >>= f)
      (Run.read (fun lexer => r lexer.current.kind) >>= g) first :=
  kind (f := fun k => f (r k)) (g := fun k => g (r k)) (congrArg g hr) fun k hk =>
    h (r k) (congrArg r hk)

/-- Reading a mark off the lexers. -/
theorem sees {m : Mark} {f g : Bool → Parse α}
    (hin : first.current.kind.isMark m = true → Rereads (f true) (g true) first)
    (hout : Rereads (f false) (g false) first) :
    Rereads (Parse.sees m >>= f) (Parse.sees m >>= g) first := by
  refine read (r := (·.isMark m)) rfl fun c hc => ?_
  cases c with
  | true => exact hin hc
  | false => exact hout

/-- Positions may be read off the lexers where they make no difference. -/
theorem position {f g : Position → Parse α} (h : ∀ p q, Rereads (f p) (g q) first) :
    Rereads (Parse.position >>= f) (Parse.position >>= g) first := by
  intro a last hrun
  obtain ⟨ks, hks, -⟩ := h _ first.current.position a last hrun
  refine ⟨ks, hks, fun second last' h' hlast => ?_⟩
  obtain ⟨ks', hks', hg⟩ := h _ second.current.position a last hrun
  rw [hks.unique hks'] at hg
  exact hg second last' h' hlast

end Rereads

/-! ## Tokens -/

variable {first : Lexer}

theorem expect_rereads (m : Mark) : Rereads (expect m) (expect m) first := by
  refine .sees (fun hm => ?_) ?_
  · exact .advance (Token.Kind.isEof_of_isMark hm)
  · exact .unexpected

/-- A word that is expected is there and is passed over. -/
theorem expectWord_eq_ok {w : Keyword} {last : Lexer} :
    expectWord w first = .ok () last ↔
      first.current.kind.isKeyword w = true ∧ advance first = .ok () last := by
  have hrun : expectWord w first =
      (if first.current.kind.isKeyword w then advance else unexpected _ : Parse Unit) first := rfl
  rw [hrun]
  cases hw : first.current.kind.isKeyword w with
  | false => exact ⟨nofun, nofun⟩
  | true => simp

theorem expectWord_rereads (w : Keyword) : Rereads (expectWord w) (expectWord w) first := by
  intro _ last hrun
  obtain ⟨hw, hnext⟩ := expectWord_eq_ok.mp hrun
  refine ⟨_, .cons (Token.Kind.isEof_of_isKeyword hw) hnext (.nil last), ?_⟩
  intro second last' h _
  obtain ⟨next, hnext', hlast⟩ := h.next
  refine .inr (expectWord_eq_ok.mpr ⟨by rwa [h.kind_eq], ?_⟩)
  rw [hlast.eq_of_nil]
  exact hnext'

theorem name_rereads : Rereads name name first := by
  refine .kind rfl fun k hk => ?_
  split
  · exact .bind (.advance (by rw [hk]; rfl)) fun _ _ => .ret _
  · exact .unexpected

theorem operator_rereads : Rereads operator operator first := by
  refine .kind rfl fun k hk => ?_
  split
  · next hop =>
    exact .bind (.advance (by rw [hk]; exact Token.Kind.isEof_of_ofToken? hop)) fun _ _ => .ret _
  · exact .unexpected

theorem separated_rereads {α : Type} {close : Mark} {item item' : List α → Parse α}
    (hitem : ∀ before first, Rereads (item before) (item' before) first) (steps steps' : Nat)
    (before : List α) :
    Rereads (separated close item steps before) (separated close item' steps' before) first := by
  induction steps generalizing steps' before first with
  | zero => exact .exhaust
  | succ steps ih =>
    have hstep (steps' : Nat) : Rereads (separated close item (steps + 1) before)
        (separated close item' (steps' + 1) before) first := by
      rw [separated, separated]
      refine .sees (fun hm => ?_) ?_
      · exact .bind (.advance (Token.Kind.isEof_of_isMark hm)) fun _ _ => .ret _
      refine .bind (hitem before _) fun next mid => ?_
      refine .sees (fun hm => ?_) ?_
      · exact .bind (.advance (Token.Kind.isEof_of_isMark hm)) fun _ _ => ih steps' _
      · exact .sees (fun _ => ih steps' _) .unexpected_bind
    cases steps' with
    | zero => exact (hstep 0).without_steps fun _ => rfl
    | succ steps' => exact hstep steps'

/-! ## Clauses -/

/-- Both parsers of the one grammar read what those of the other read. -/
structure Grammar.Rereads (g g' : Grammar) : Prop where
  expression : ∀ first, Parse.Rereads g.expression g'.expression first
  operand : ∀ first, Parse.Rereads g.operand g'.operand first

variable {g g' : Grammar} (hg : g.Rereads g')

include hg

theorem param_rereads (index : Nat) : Rereads (param g index) (param g' index) first := by
  refine .kind rfl fun k hk => ?_
  split
  · refine .bind (.advance (by rw [hk]; rfl)) fun _ _ => ?_
    refine .sees (fun hm => ?_) (.kind rfl fun k hk => ?_)
    · refine .bind (.advance (Token.Kind.isEof_of_isMark hm)) fun _ _ => ?_
      exact .bind (hg.expression _) fun _ _ => .ret _
    · split
      · next hop =>
        refine .bind (.advance (by rw [hk]; exact Token.Kind.isEof_of_ofToken? hop)) fun _ _ => ?_
        exact .bind (hg.operand _) fun _ _ => .ret _
      · exact .ret _
  · exact .bind (hg.expression _) fun _ _ => .ret _

theorem nextParam_rereads (before : List Param) :
    Rereads (nextParam g before) (nextParam g' before) first := by
  refine .position fun _ _ => .bind (param_rereads hg _) fun p _ => ?_
  split
  · split
    · exact .fail
    · exact .ret _
  · exact .ret _

theorem clause_rereads (steps steps' : Nat) :
    Rereads (clause g steps) (clause g' steps') first := by
  refine .bind (expect_rereads _) fun _ _ => ?_
  refine .bind (separated_rereads (fun before _ => nextParam_rereads hg before) _ _ _)
    fun params _ => ?_
  refine .bind (expect_rereads _) fun _ _ => ?_
  exact .bind (hg.expression _) fun body _ => .ret _

theorem clauses_reread (inner inner' steps steps' : Nat) :
    Rereads (clauses g inner steps) (clauses g' inner' steps') first := by
  induction steps generalizing steps' first with
  | zero => exact .exhaust
  | succ steps ih =>
    have hstep (steps' : Nat) :
        Rereads (clauses g inner (steps + 1)) (clauses g' inner' (steps' + 1)) first := by
      rw [clauses, clauses]
      refine .sees (fun hm => ?_) ?_
      · exact .bind (.advance (Token.Kind.isEof_of_isMark hm)) fun _ _ => .ret _
      refine .bind (expectWord_rereads _) fun _ _ => ?_
      refine .bind (clause_rereads hg _ _) fun c _ => ?_
      exact .bind (ih steps') fun cs _ => .ret _
    cases steps' with
    | zero => exact (hstep 0).without_steps fun _ => rfl
    | succ steps' => exact hstep steps'

/-! ## Primary expressions -/

theorem lambda_rereads (steps steps' : Nat) :
    Rereads (lambda g steps) (lambda g' steps') first := by
  refine .sees (fun _ => ?_) ?_
  · exact .bind (clause_rereads hg _ _) fun c _ => .ret _
  · refine .bind (expect_rereads _) fun _ _ => ?_
    exact .bind (clauses_reread hg _ _ _ _) fun cs _ => .ret _

omit hg in
theorem operatorLambda_rereads : Rereads operatorLambda operatorLambda first :=
  .bind operator_rereads fun _ _ => .ret _

theorem operatorSection_rereads : Rereads (operatorSection g) (operatorSection g') first := by
  refine .bind operator_rereads fun op _ => ?_
  exact .bind (hg.operand _) fun e _ => .ret _

theorem entry_rereads : Rereads (entry g) (entry g') first := by
  have hrest (key : String) (hend : first.current.kind.isEof = false) :
      Rereads (do
        advance
        expect .colon
        let value ← g.expression
        return Entry.mk key value) (do
        advance
        expect .colon
        let value ← g'.expression
        return Entry.mk key value) first := by
    refine .bind (.advance hend) fun _ _ => ?_
    refine .bind (expect_rereads _) fun _ _ => ?_
    exact .bind (hg.expression _) fun value _ => .ret _
  refine .kind rfl fun k hk => ?_
  split
  · exact hrest _ (by rw [hk]; rfl)
  · exact hrest _ (by rw [hk]; rfl)
  · exact .unexpected_bind

omit hg in
theorem itemName_rereads (before : List (String × Bool)) :
    Rereads (itemName before) (itemName before) first := by
  unfold itemName
  split
  · exact .unexpected_bind
  · refine .bind name_rereads fun s _ => ?_
    refine .sees (fun hm => ?_) (.ret _)
    exact .bind (.advance (Token.Kind.isEof_of_isMark hm)) fun _ _ => .ret _

omit hg in
theorem target_rereads (steps steps' : Nat) : Rereads (target steps) (target steps') first := by
  refine .sees (fun hm => ?_) ?_
  · refine .bind (.advance (Token.Kind.isEof_of_isMark hm)) fun _ _ => ?_
    exact .bind (separated_rereads (fun before _ => itemName_rereads before) _ _ _)
      fun names _ => .ret _
  · exact .bind name_rereads fun s _ => .ret _

theorem binding_rereads (steps steps' : Nat) :
    Rereads (binding g steps) (binding g' steps') first := by
  refine .bind (target_rereads _ _) fun t _ => ?_
  refine .bind (expect_rereads _) fun _ _ => ?_
  exact .bind (hg.expression _) fun value _ => .ret _

theorem withBlock_rereads (steps steps' : Nat) :
    Rereads (withBlock g steps) (withBlock g' steps') first := by
  refine .bind (expect_rereads _) fun _ _ => ?_
  refine .bind (separated_rereads (fun _ _ => binding_rereads hg _ _) _ _ _) fun bindings _ => ?_
  refine .bind (expect_rereads _) fun _ _ => ?_
  exact .bind (hg.expression _) fun body _ => .ret _

theorem parenthesized_rereads : Rereads (parenthesized g) (parenthesized g') first := by
  refine .sees (fun hm => ?_) ?_
  · exact .bind (.advance (Token.Kind.isEof_of_isMark hm)) fun _ _ => .ret _
  · refine .bind (hg.expression _) fun e _ => ?_
    exact .bind (expect_rereads _) fun _ _ => .ret _

theorem primary_rereads (steps steps' : Nat) :
    Rereads (primary g steps) (primary g' steps') first := by
  have hnext {x y : Parse Expr} (hend : first.current.kind.isEof = false)
      (hx : ∀ mid, Rereads x y mid) : Rereads (do advance; x) (do advance; y) first :=
    .bind (.advance hend) fun _ mid => hx mid
  refine .kind rfl fun k hk => ?_
  split
  case h_1 => exact hnext (by rw [hk]; rfl) fun _ => .ret _
  case h_2 => exact hnext (by rw [hk]; rfl) fun _ => .ret _
  case h_3 => exact hnext (by rw [hk]; rfl) fun _ => .ret _
  case h_4 => exact hnext (by rw [hk]; rfl) fun _ => .ret _
  case h_5 => exact hnext (by rw [hk]; rfl) fun _ => .ret _
  case h_6 => exact hnext (by rw [hk]; rfl) fun _ => parenthesized_rereads hg
  case h_7 =>
    refine hnext (by rw [hk]; rfl) fun _ => ?_
    exact .bind (separated_rereads (fun _ => hg.expression) _ _ _) fun _ _ => .ret _
  case h_8 =>
    refine hnext (by rw [hk]; rfl) fun _ => ?_
    exact .bind (separated_rereads (fun _ _ => entry_rereads hg) _ _ _) fun _ _ => .ret _
  case h_9 => exact hnext (by rw [hk]; rfl) fun _ => lambda_rereads hg _ _
  case h_10 => exact hnext (by rw [hk]; rfl) fun _ => operatorLambda_rereads
  case h_11 => exact hnext (by rw [hk]; rfl) fun _ => operatorSection_rereads hg
  case h_12 => exact hnext (by rw [hk]; rfl) fun _ => withBlock_rereads hg _ _
  case h_13 =>
    refine hnext (by rw [hk]; rfl) fun _ => ?_
    exact .bind (hg.operand _) fun _ _ => .ret _
  case h_14 =>
    refine hnext (by rw [hk]; rfl) fun _ => ?_
    exact .bind (hg.operand _) fun _ _ => .ret _
  case h_15 => exact .unexpected

/-! ## Operands and expressions -/

theorem suffixes_reread (inner inner' steps steps' : Nat) (e : Expr) :
    Rereads (suffixes g inner steps e) (suffixes g' inner' steps' e) first := by
  induction steps generalizing steps' first e with
  | zero => exact .exhaust
  | succ steps ih =>
    have hstep (steps' : Nat) :
        Rereads (suffixes g inner (steps + 1) e) (suffixes g' inner' (steps' + 1) e) first := by
      rw [suffixes, suffixes]
      refine .kind rfl fun k hk => ?_
      split
      · refine .bind (.advance (by rw [hk]; rfl)) fun _ _ => ?_
        exact .bind (separated_rereads (fun _ => hg.expression) _ _ _) fun args _ => ih steps' _
      · refine .bind (.advance (by rw [hk]; rfl)) fun _ _ => ?_
        exact .bind (primary_rereads hg _ _) fun callee _ => ih steps' _
      · exact .ret e
    cases steps' with
    | zero => exact (hstep 0).without_steps fun _ => rfl
    | succ steps' => exact hstep steps'

theorem operandWith_rereads (steps steps' : Nat) :
    Rereads (operandWith g steps) (operandWith g' steps') first :=
  .bind (primary_rereads hg _ _) fun e _ => suffixes_reread hg _ _ _ _ e

theorem chain_rereads (steps steps' : Nat) :
    Rereads (chain g steps) (chain g' steps') first := by
  induction steps generalizing steps' first with
  | zero => exact .exhaust
  | succ steps ih =>
    have hstep (steps' : Nat) : Rereads (chain g (steps + 1)) (chain g' (steps' + 1)) first := by
      rw [chain, chain]
      refine .kind rfl fun k hk => ?_
      split
      · next hop =>
        refine .bind (.advance (by rw [hk]; exact Token.Kind.isEof_of_ofToken? hop)) fun _ _ => ?_
        refine .bind (hg.operand _) fun e _ => ?_
        exact .bind (ih steps') fun rest _ => .ret _
      · exact .ret _
    cases steps' with
    | zero => exact (hstep 0).without_steps fun _ => rfl
    | succ steps' => exact hstep steps'

theorem optional_rereads (m : Mark) : Rereads (optional g m) (optional g' m) first := by
  refine .sees (fun hm => ?_) (.ret _)
  refine .bind (.advance (Token.Kind.isEof_of_isMark hm)) fun _ _ => ?_
  exact .bind (hg.expression _) fun e _ => .ret _

theorem expressionWith_rereads (steps steps' : Nat) :
    Rereads (expressionWith g steps) (expressionWith g' steps') first := by
  refine .bind (hg.operand _) fun e _ => ?_
  refine .bind (chain_rereads hg _ _) fun rest _ => ?_
  refine .sees (fun hm => ?_) (.ret _)
  refine .bind (.advance (Token.Kind.isEof_of_isMark hm)) fun _ _ => ?_
  refine .bind name_rereads fun s _ => ?_
  refine .bind (optional_rereads hg _) fun filter _ => ?_
  exact .bind (optional_rereads hg _) fun map _ => .ret _

omit hg

/-- Whatever number of steps the two are given. -/
theorem grammar_rereads (steps steps' : Nat) :
    Grammar.Rereads ⟨expressionIn steps, operandIn steps⟩
      ⟨expressionIn steps', operandIn steps'⟩ := by
  induction steps generalizing steps' with
  | zero => exact ⟨fun _ => .of_fails fun _ _ => nofun, fun _ => .of_fails fun _ _ => nofun⟩
  | succ steps ih =>
    have hstep (steps' : Nat) : Grammar.Rereads ⟨expressionIn (steps + 1), operandIn (steps + 1)⟩
        ⟨expressionIn (steps' + 1), operandIn (steps' + 1)⟩ :=
      ⟨fun _ => expressionWith_rereads (ih steps') steps steps',
        fun _ => operandWith_rereads (ih steps') steps steps'⟩
    cases steps' with
    | zero =>
      exact ⟨fun first => ((hstep 0).expression first).without_steps fun _ => rfl,
        fun first => ((hstep 0).operand first).without_steps fun _ => rfl⟩
    | succ steps' => exact hstep steps'

/-! ## Declarations -/

theorem wholeClause_rereads : Rereads wholeClause wholeClause first := by
  intro c last hrun
  have hclause (second : Lexer) : Rereads (clause _ (stepsFor first)) (clause _ (stepsFor second))
      first :=
    clause_rereads (grammar_rereads (stepsFor first) (stepsFor second)) _ _
  obtain ⟨ks, hks, -⟩ := hclause first c last hrun
  refine ⟨ks, hks, fun second last' h hlast => ?_⟩
  obtain ⟨ks', hks', hsecond⟩ := hclause second c last hrun
  rw [hks.unique hks'] at hsecond
  exact hsecond second last' h hlast

variable {isNative : String → Bool}

theorem declaration_rereads :
    Rereads (declaration isNative) (declaration isNative) first := by
  refine .bind (expectWord_rereads _) fun _ _ => .position fun _ _ => ?_
  refine .bind name_rereads fun s _ => ?_
  split
  · exact .fail_bind
  · exact .bind wholeClause_rereads fun c _ => .ret _

/-- A declaration that is read somewhere is read wherever its tokens stand. It never runs out of
steps. -/
theorem declaration_reads_again {d : Declaration} {last : Lexer}
    (h : declaration isNative first = .ok d last) :
    ∃ ks, first.Passes ks last ∧ ∀ second last', second.Passes ks last' →
      last.current.kind.Alike last'.current.kind → declaration isNative second = .ok d last' := by
  obtain ⟨ks, hks, hread⟩ := declaration_rereads d last h
  refine ⟨ks, hks, fun second last' h' hlast => ?_⟩
  refine (hread second last' h' hlast).resolve_left fun hout => ?_
  have hhalts := declaration_halts isNative second
  rw [Halts, hout] at hhalts
  exact hhalts

end Parse

end Clausal
