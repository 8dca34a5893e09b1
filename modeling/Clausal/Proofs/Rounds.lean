import Clausal.Proofs.Rereading
import Clausal.Proofs.Steps

/-!
# Every round of a loop reads a token

The parsers have loops: over parameters, arguments, items, entries, bindings, the names of a target,
the clauses of a lambda, the calls and pipes behind an operand, operators and their operands, and
declarations. Each of them is one round repeated (`Parse.repeating`), with a step for each round,
and a round after which the loop goes on has passed over at least one token
(`Parse.LoopProgresses`). The end of the source is no token to pass over, so no loop goes on there,
wherever the source was cut off.

* `Parse.Takes count x`: ending in a value `a`, the parser has passed over `count a` tokens at
  least.
* `Parse.separated_progresses`, `Parse.clauses_progress`, …: the loops, one by one.
* `Parse.length_statementsOf_le`: however often a statement is asked for, also after complaints,
  there are no more of them than characters.
* `Parse.parsing_always_progresses`: all this together, and that no parser runs out of steps.
-/

namespace Clausal

namespace Parse

variable {α β σ : Type}

/-! ## Tokens passed over -/

/-- Ending in a value `a`, the parser has passed over `count a` tokens at least. -/
def Takes (count : α → Nat) (x : Parse α) (lexer : Lexer) : Prop :=
  ∀ a stop, x lexer = .ok a stop → ∃ ks, count a ≤ ks.length ∧ lexer.Passes ks stop

namespace Takes

variable {x : Parse α} {f : α → Parse β} {count : α → Nat} {count' : β → Nat} {lexer : Lexer}

theorem bind {n : Nat} (hx : Takes (fun _ => n) x lexer) (hf : ∀ a mid, Takes count' (f a) mid) :
    Takes (fun b => n + count' b) (x >>= f) lexer := by
  intro b stop hrun
  obtain ⟨a, mid, ha, hb⟩ := Run.bind_eq_ok_iff.mp hrun
  obtain ⟨ks, hn, hks⟩ := hx a mid ha
  obtain ⟨ks', hcount, hks'⟩ := hf a mid b stop hb
  exact ⟨ks ++ ks', by rw [List.length_append]; exact Nat.add_le_add hn hcount, hks.append hks'⟩

theorem mono (hx : Takes count x lexer) {less : α → Nat} (h : ∀ a, less a ≤ count a) :
    Takes less x lexer := by
  intro a stop hrun
  obtain ⟨ks, hcount, hks⟩ := hx a stop hrun
  exact ⟨ks, Nat.le_trans (h a) hcount, hks⟩

/-- One token is enough; what comes behind it may take more. -/
theorem first (hx : Takes (fun _ => 1) x lexer) (hf : ∀ a mid, Takes (fun _ => 0) (f a) mid)
    (hcount : ∀ b, count' b ≤ 1) : Takes count' (x >>= f) lexer :=
  (hx.bind hf).mono hcount

/-- Whatever the first parser takes, the second takes enough. -/
theorem after (hx : Takes (fun _ => 0) x lexer) (hf : ∀ a mid, Takes count' (f a) mid) :
    Takes count' (x >>= f) lexer :=
  (hx.bind hf).mono fun _ => by omega

theorem ret {a : α} (h : count a = 0) : Takes count (pure a) lexer := by
  intro b stop hrun
  cases hrun
  exact ⟨[], by rw [h]; exact Nat.zero_le _, .nil lexer⟩

theorem unexpected_bind (wanted : Expectation) :
    Takes count' (Parse.unexpected wanted >>= f) lexer := fun _ _ => nofun

/-- Going by what is read off the lexer. -/
theorem read {r : Lexer → α} (h : Takes count' (f (r lexer)) lexer) :
    Takes count' (Run.read r >>= f) lexer := h

theorem advance (hend : lexer.current.kind.isEof = false) :
    Takes (fun _ => 1) Parse.advance lexer := by
  intro a stop hrun
  refine ⟨[lexer.current.kind], Nat.le_refl 1, .cons hend hrun (.nil stop)⟩

/-- What can be read again elsewhere has passed over some tokens, or none. -/
theorem of_rereads {y : Parse α} (h : Rereads x y lexer) : Takes (fun _ => 0) x lexer := by
  intro a stop hrun
  obtain ⟨ks, hks, -⟩ := h a stop hrun
  exact ⟨ks, Nat.zero_le _, hks⟩

/-- A parser that leaves less, if only it has the steps, has passed over a token. -/
theorem of_halts {y : Parse α} (hx : Takes (fun _ => 0) x lexer) (hwithin : Within x y)
    (hhalts : Halts y lexer lexer.left) : Takes (fun _ => 1) x lexer := by
  intro a stop hrun
  obtain ⟨ks, -, hks⟩ := hx a stop hrun
  have hy : y lexer = .ok a stop := by
    rw [hwithin.eq_of_ne (by rw [hrun]; exact nofun), hrun]
  rw [Halts, hy] at hhalts
  refine ⟨ks, ?_, hks⟩
  cases ks with
  | nil =>
    rw [hks.eq_of_nil] at hhalts
    exact absurd hhalts (Nat.lt_irrefl _)
  | cons k ks => exact Nat.succ_le_succ (Nat.zero_le _)

end Takes

/-! ## Loops -/

/-- Run `round` again and again on what it leaves, as long as it asks for that. -/
def repeating (round : σ → Parse (σ ⊕ β)) : Nat → σ → Parse β
  | 0, _ => Run.exhaust
  | steps + 1, s => do
    match ← round s with
    | .inl s => repeating round steps s
    | .inr b => return b

/-- How many tokens a round has to pass over: one, if the loop is to go on. -/
def goingOn : σ ⊕ β → Nat
  | .inl _ => 1
  | .inr _ => 0

theorem goingOn_le (r : σ ⊕ β) : goingOn r ≤ 1 := by
  cases r with
  | inl s => exact Nat.le_refl 1
  | inr b => exact Nat.zero_le 1

/-- The loop, given as a function of its steps, is a round repeated, and every round after which it
goes on has passed over a token. -/
def LoopProgresses (loop : Nat → Parse β) : Prop :=
  ∃ (σ : Type) (round : σ → Parse (σ ⊕ β)) (start : σ),
    (∀ steps, loop steps = repeating round steps start) ∧
    ∀ s lexer s' stop, round s lexer = .ok (.inl s') stop →
      ∃ ks, ks ≠ [] ∧ lexer.Passes ks stop

theorem loopProgresses_of {loop : Nat → Parse β} (round : σ → Parse (σ ⊕ β)) (start : σ)
    (heq : ∀ steps, loop steps = repeating round steps start)
    (htakes : ∀ s lexer, Takes goingOn (round s) lexer) : LoopProgresses loop := by
  refine ⟨σ, round, start, heq, fun s lexer s' stop hrun => ?_⟩
  obtain ⟨ks, hcount, hks⟩ := htakes s lexer _ stop hrun
  exact ⟨ks, List.ne_nil_of_length_pos hcount, hks⟩

/-- One round of `separated`: the end of the items, or one more and what separates it. -/
def itemRound (close : Mark) (item : List α → Parse α) (before : List α) :
    Parse (List α ⊕ List α) := do
  if ← sees close then
    advance
    return .inr before.reverse
  let next ← item before
  if ← sees .comma then
    advance
  else if !(← sees close) then
    unexpected (.separator close)
  return .inl (next :: before)

theorem separated_eq (close : Mark) (item : List α → Parse α) (steps : Nat) (before : List α) :
    separated close item steps before = repeating (itemRound close item) steps before := by
  induction steps generalizing before with
  | zero => rfl
  | succ steps ih =>
    rw [separated, repeating, itemRound]
    simp only [bind_assoc]
    refine bind_congr fun closed => ?_
    split
    · simp only [bind_assoc, pure_bind]
    · simp only [bind_assoc]
      refine bind_congr fun next => bind_congr fun comma => ?_
      split
      · simp only [bind_assoc, pure_bind, ih]
      · simp only [bind_assoc]
        refine bind_congr fun closing => ?_
        split
        · simp only [bind_assoc, pure_bind, ih]
        · simp only [pure_bind, ih]

theorem separated_progresses {close : Mark} {item : List α → Parse α}
    (hitem : ∀ before lexer, Takes (fun _ => 1) (item before) lexer) :
    LoopProgresses fun steps => separated close item steps [] := by
  refine loopProgresses_of (itemRound close item) []
    (fun steps => separated_eq close item steps []) fun before lexer => .read ?_
  split
  · next h =>
    refine .first (.advance (Token.Kind.isEof_of_isMark h)) (fun _ mid => .ret rfl) ?_
    exact goingOn_le
  · refine .first (hitem before lexer) (fun next mid => .read ?_) goingOn_le
    split
    · next h =>
      refine .after ((Takes.advance (Token.Kind.isEof_of_isMark h)).mono fun _ => ?_) fun _ _ => ?_
      · exact Nat.zero_le _
      · exact .ret rfl
    · refine .read ?_
      split
      · exact .unexpected_bind _
      · exact .ret rfl

/-- One, if there is one more. -/
def oneMore : Option α → Nat
  | some _ => 1
  | none => 0

theorem oneMore_le (a : Option α) : oneMore a ≤ 1 := by
  cases a with
  | none => exact Nat.zero_le 1
  | some a => exact Nat.le_refl 1

/-- One round of a loop that collects what it reads; those before are given latest first. -/
def collecting (more : Parse (Option α)) (before : List α) : Parse (List α ⊕ List α) := do
  match ← more with
  | some next => return .inl (next :: before)
  | none => return .inr before.reverse

/-- A loop that collects what it reads, and puts each in front of the others. -/
theorem collecting_eq {loop : Nat → Parse (List α)} {more : Parse (Option α)}
    (hzero : loop 0 = Run.exhaust)
    (hsucc : ∀ steps, loop (steps + 1) = do
      match ← more with
      | some next => return next :: (← loop steps)
      | none => return []) (steps : Nat) (before : List α) :
    repeating (collecting more) steps before = do return before.reverse ++ (← loop steps) := by
  induction steps generalizing before with
  | zero =>
    rw [hzero]
    rfl
  | succ steps ih =>
    rw [repeating, hsucc, collecting]
    simp only [bind_assoc]
    refine bind_congr fun next => ?_
    cases next with
    | none => simp
    | some next =>
      simp only [pure_bind, bind_assoc, ih, List.reverse_cons, List.append_assoc,
        List.singleton_append]

theorem collecting_progresses {loop : Nat → Parse (List α)} (more : Parse (Option α))
    (hzero : loop 0 = Run.exhaust)
    (hsucc : ∀ steps, loop (steps + 1) = do
      match ← more with
      | some next => return next :: (← loop steps)
      | none => return []) (hmore : ∀ lexer, Takes oneMore more lexer) : LoopProgresses loop := by
  refine loopProgresses_of (collecting more) [] (fun steps => ?_) ?_
  · rw [collecting_eq hzero hsucc]
    simp
  · intro before lexer r stop hrun
    obtain ⟨next, mid, hnext, hrest⟩ := Run.bind_eq_ok_iff.mp hrun
    obtain ⟨ks, hcount, hks⟩ := hmore lexer next mid hnext
    cases next with
    | none =>
      cases hrest
      exact ⟨ks, hcount, hks⟩
    | some next =>
      cases hrest
      exact ⟨ks, hcount, hks⟩

/-! ## The loops of the grammar -/

section

variable (steps inner : Nat)

/-- The steps given, or enough for what is left. -/
def enough (lexer : Lexer) : Nat := max steps (2 * (lexer.left + 1))

theorem le_enough (lexer : Lexer) : steps ≤ enough steps lexer := Nat.le_max_left _ _

theorem left_lt_enough (lexer : Lexer) : lexer.left < enough steps lexer := by
  unfold enough
  omega

theorem grammar_within_enough (lexer : Lexer) :
    Grammar.Within ⟨expressionIn steps, operandIn steps⟩
      ⟨expressionIn (enough steps lexer), operandIn (enough steps lexer)⟩ :=
  grammar_within (le_enough steps lexer)

theorem grammar_halts_enough (lexer : Lexer) :
    Grammar.Halts ⟨expressionIn (enough steps lexer), operandIn (enough steps lexer)⟩
      (lexer.left + 1) :=
  grammar_halts (Nat.le_max_right _ _)

theorem expressionIn_takes (lexer : Lexer) : Takes (fun _ => 1) (expressionIn steps) lexer :=
  (Takes.of_rereads ((grammar_rereads steps steps).expression lexer)).of_halts
    (grammar_within_enough steps lexer).expression
    ((grammar_halts_enough steps lexer).expression lexer (Nat.lt_succ_self _))

theorem nextParam_takes (before : List Param) (lexer : Lexer) :
    Takes (fun _ => 1) (nextParam ⟨expressionIn steps, operandIn steps⟩ before) lexer :=
  (Takes.of_rereads (nextParam_rereads (grammar_rereads steps steps) before)).of_halts
    (nextParam_within (grammar_within_enough steps lexer) before)
    (nextParam_halts (grammar_halts_enough steps lexer) (Nat.lt_succ_self _) before)

theorem entry_takes (lexer : Lexer) :
    Takes (fun _ => 1) (entry ⟨expressionIn steps, operandIn steps⟩) lexer :=
  (Takes.of_rereads (entry_rereads (grammar_rereads steps steps))).of_halts
    (entry_within (grammar_within_enough steps lexer))
    (entry_halts (grammar_halts_enough steps lexer) (Nat.lt_succ_self _))

theorem binding_takes (lexer : Lexer) :
    Takes (fun _ => 1) (binding ⟨expressionIn steps, operandIn steps⟩ inner) lexer :=
  (Takes.of_rereads (binding_rereads (grammar_rereads steps steps) inner inner)).of_halts
    (binding_within (grammar_within_enough steps lexer) (le_enough inner lexer))
    (binding_halts (grammar_halts_enough steps lexer) (Nat.lt_succ_self _)
      (left_lt_enough inner lexer))

theorem itemName_takes (before : List (String × Bool)) (lexer : Lexer) :
    Takes (fun _ => 1) (itemName before) lexer :=
  (Takes.of_rereads (itemName_rereads before)).of_halts (itemName_within before)
    (itemName_halts before)

/-- The clauses of a lambda. -/
theorem clauses_progress :
    LoopProgresses fun n => clauses ⟨expressionIn steps, operandIn steps⟩ inner n := by
  refine collecting_progresses (do
    if ← sees .rightBrace then
      advance
      return none
    expectWord .letWord
    return some (← clause ⟨expressionIn steps, operandIn steps⟩ inner)) rfl (fun n => ?_)
    fun lexer => .read ?_
  · rw [clauses]
    simp only [bind_assoc]
    refine bind_congr fun closed => ?_
    split <;> simp
  · split
    · next h =>
      exact .first (.advance (Token.Kind.isEof_of_isMark h)) (fun _ _ => .ret rfl) oneMore_le
    · have hword : Takes (fun _ => 1) (expectWord .letWord) lexer :=
        (Takes.of_rereads (expectWord_rereads _)).of_halts (expectWord_within _)
          (expectWord_halts lexer _)
      refine hword.first (fun _ mid => ?_) oneMore_le
      refine .after (.of_rereads (clause_rereads (grammar_rereads steps steps) inner inner)) ?_
      exact fun c _ => .ret rfl

/-- An operator and its operand, if there is one more. -/
def nextOperand (g : Grammar) : Parse (Option (BinaryOp × Expr)) := do
  match BinaryOp.ofToken? (← kind) with
  | some op =>
    advance
    return some (op, ← g.operand)
  | none => return none

/-- Operators and their operands. -/
theorem chain_progresses :
    LoopProgresses fun n => chain ⟨expressionIn steps, operandIn steps⟩ n := by
  refine collecting_progresses (nextOperand ⟨expressionIn steps, operandIn steps⟩) rfl
    (fun n => ?_) fun lexer => .read ?_
  · rw [chain, nextOperand]
    simp only [bind_assoc]
    refine bind_congr fun k => ?_
    cases BinaryOp.ofToken? k <;> simp
  · split
    · next h =>
      refine .first (.advance (Token.Kind.isEof_of_ofToken? h)) (fun _ mid => ?_) oneMore_le
      exact .after (.of_rereads ((grammar_rereads steps steps).operand mid)) fun e _ => .ret rfl
    · exact .ret rfl

theorem declaration_takes (isNative : String → Bool) (lexer : Lexer) :
    Takes (fun _ => 1) (declaration isNative) lexer :=
  (Takes.of_rereads declaration_rereads).of_halts
    (declarationWith_within (fun _ => Nat.le_refl _) isNative) (declaration_halts isNative lexer)

/-- Declarations, one behind the other. -/
theorem declarations_progress (isNative : String → Bool) :
    LoopProgresses fun n => declarations isNative n := by
  refine collecting_progresses (do
    if ← seesWord .letWord then
      return some (← declaration isNative)
    return none) rfl (fun n => ?_) fun lexer => .read ?_
  · rw [declarations]
    simp only [bind_assoc]
    refine bind_congr fun more => ?_
    split <;> simp
  · split
    · exact (declaration_takes isNative lexer).first (fun d _ => .ret rfl) oneMore_le
    · exact .ret rfl

/-- One round of `suffixes`: arguments, a pipe, or the end. -/
def suffixRound (g : Grammar) (inner : Nat) (e : Expr) : Parse (Expr ⊕ Expr) := do
  match ← kind with
  | .mark .leftParen =>
    advance
    let args ← separated .rightParen (fun _ => g.expression) inner []
    return .inl (.call e args)
  | .mark .arrow =>
    advance
    let callee ← primary g inner
    return .inl (.call callee [e])
  | _ => return .inr e

/-- Calls and pipes behind an operand. -/
theorem suffixes_progress (e : Expr) :
    LoopProgresses fun n => suffixes ⟨expressionIn steps, operandIn steps⟩ inner n e := by
  refine loopProgresses_of (suffixRound ⟨expressionIn steps, operandIn steps⟩ inner) e
    (fun n => ?_) fun e lexer => .read ?_
  · induction n generalizing e with
    | zero => rfl
    | succ n ih =>
      rw [suffixes, repeating, suffixRound]
      simp only [bind_assoc]
      refine bind_congr fun k => ?_
      split <;> simp [ih]
  · split
    · next h =>
      refine .first (.advance (by rw [h]; rfl)) (fun _ mid => ?_) goingOn_le
      refine .after (.of_rereads (separated_rereads
        (fun _ => (grammar_rereads steps steps).expression) inner inner [])) fun args _ => .ret rfl
    · next h =>
      refine .first (.advance (by rw [h]; rfl)) (fun _ mid => ?_) goingOn_le
      exact .after (.of_rereads (primary_rereads (grammar_rereads steps steps) inner inner))
        fun callee _ => .ret rfl
    · exact .ret rfl

end

/-! ## Statements -/

section

variable (isNative : String → Bool)

theorem declarations_take (steps : Nat) (lexer : Lexer) :
    Takes (fun _ => 0) (declarations isNative steps) lexer := by
  induction steps generalizing lexer with
  | zero => exact fun _ _ => nofun
  | succ steps ih =>
    rw [declarations]
    refine .read ?_
    split
    · refine .after ((declaration_takes isNative lexer).mono fun _ => Nat.zero_le _) fun d mid => ?_
      exact .after (ih mid) fun rest _ => .ret rfl
    · exact .ret rfl

theorem useStatement_takes (lexer : Lexer) : Takes (fun _ => 0) useStatement lexer := by
  refine .read (.after (.of_rereads (expectWord_rereads _)) fun _ mid => .read ?_)
  intro s stop hrun
  obtain ⟨_, last, hnext, hrest⟩ := Run.bind_eq_ok_iff.mp hrun
  -- only a text behind the word makes a statement, and a text is not the end
  generalize hkind : mid.current.kind = k at hrest
  cases k with
  | text path =>
    cases hrest
    exact ⟨_, Nat.zero_le _, .cons (by rw [hkind]; rfl) hnext (.nil _)⟩
  | _ => cases hrest

theorem statement_takes (lexer : Lexer) : Takes (fun _ => 0) (statement isNative) lexer := by
  refine .read ?_
  split
  · exact .ret rfl
  · exact .after (useStatement_takes lexer) fun s _ => .ret rfl
  · exact .read (.after (declarations_take isNative _ lexer) fun group _ => .ret rfl)
  · exact fun _ _ => nofun

end

/-- A statement that is read is more than nothing. -/
theorem exists_passes_of_statement {isNative : String → Bool} {lexer stop : Lexer} {s : Statement}
    (hrun : statement isNative lexer = .ok (some s) stop) :
    ∃ ks, ks ≠ [] ∧ lexer.Passes ks stop := by
  obtain ⟨ks, -, hks⟩ := statement_takes isNative lexer _ stop hrun
  refine ⟨ks, ?_, hks⟩
  rintro rfl
  have hless := statement_less hrun
  rw [hks.eq_of_nil] at hless
  exact Nat.lt_irrefl _ hless

/-- The statements that a lexer gives when it is asked again and again, also after complaints. Each
time the names of the built-in functions may be others. -/
def statementsOf : List (String → Bool) → Lexer → List Statement
  | [], _ => []
  | isNative :: calls, lexer =>
    match statement isNative lexer with
    | .ok (some s) stop => s :: statementsOf calls stop
    | .ok none stop => statementsOf calls stop
    | .fail _ stop => statementsOf calls stop
    | .exhausted => []

/-- Every statement leaves less, and a complaint never more. -/
theorem length_statementsOf_le (calls : List (String → Bool)) (lexer : Lexer) :
    (statementsOf calls lexer).length ≤ lexer.left := by
  induction calls generalizing lexer with
  | nil => exact Nat.zero_le _
  | cons isNative calls ih =>
    have hwithin := statement_within isNative lexer
    rw [statementsOf]
    split
    · next s stop hrun =>
      have hrest := ih stop
      have hless := statement_less hrun
      rw [List.length_cons]
      omega
    · next stop hrun =>
      rw [hrun] at hwithin
      exact Nat.le_trans (ih stop) hwithin.1.left_le
    · next e stop hrun =>
      rw [hrun] at hwithin
      exact Nat.le_trans (ih stop) hwithin.1.left_le
    · exact Nat.zero_le _

end Parse

/-- At its start a lexer has no more left than the source has characters. -/
theorem Lexer.left_ofSource {source : String} {file : Option String} {start : Lexer}
    (h : Lexer.ofSource source file = .ok start) : start.left ≤ source.length := by
  have hreach := (scan_reaches file (Cursor.ofSource source)).length_le
  have hlength : (Cursor.ofSource source).rest.length = source.length := String.length_toList
  rw [Lexer.ofSource] at h
  split at h
  · next token cursor hscan =>
    rw [hscan] at hreach
    cases h
    unfold Lexer.left
    cases hend : token.kind.isEof with
    | true => simpa [hlength] using hreach
    | false =>
      have hless := scan_length_lt hscan hend
      simp only [Bool.false_eq_true, if_false]
      omega
  · cases h

namespace Parse

/-- Four steps for each character behind the token, and four more. -/
theorem left_le_characters (lexer : Lexer) :
    2 * (lexer.left + 1) ≤ 4 * (lexer.cursor.rest.length + 1) := by
  unfold Lexer.left
  split <;> omega

/-- Parsing always comes to an end and makes progress, from whatever lexer. With four steps for each
character left and four more, an expression and a statement never run out of steps, and more steps
change nothing. An expression or statement that is read has passed over at least one token. No loop
goes on after a round that has passed over none. So, however often a lexer is asked for statements,
it gives no more of them than the source has characters. -/
theorem parsing_always_progresses :
    (∀ (lexer : Lexer) (steps : Nat), 4 * (lexer.cursor.rest.length + 1) ≤ steps →
      expressionIn steps lexer ≠ .exhausted ∧ expressionIn steps lexer = expression lexer) ∧
    (∀ (isNative : String → Bool) (lexer : Lexer) (steps : Nat),
      4 * (lexer.cursor.rest.length + 1) ≤ steps →
        statementIn isNative steps lexer ≠ .exhausted ∧
        statementIn isNative steps lexer = statement isNative lexer) ∧
    (∀ (lexer : Lexer) (e : Expr) (stop : Lexer), expression lexer = .ok e stop →
      ∃ ks, ks ≠ [] ∧ lexer.Passes ks stop) ∧
    (∀ (isNative : String → Bool) (lexer : Lexer) (s : Statement) (stop : Lexer),
      statement isNative lexer = .ok (some s) stop → ∃ ks, ks ≠ [] ∧ lexer.Passes ks stop) ∧
    (∀ n inner : Nat,
      let g : Grammar := ⟨expressionIn n, operandIn n⟩
      (LoopProgresses fun steps => separated .rightParen (nextParam g) steps []) ∧
      (LoopProgresses fun steps => separated .rightParen (fun _ => g.expression) steps []) ∧
      (LoopProgresses fun steps => separated .rightBracket (fun _ => g.expression) steps []) ∧
      (LoopProgresses fun steps => separated .rightBrace (fun _ => entry g) steps []) ∧
      (LoopProgresses fun steps => separated .rightParen (fun _ => binding g inner) steps []) ∧
      (LoopProgresses fun steps => separated .rightBracket itemName steps []) ∧
      (LoopProgresses fun steps => clauses g inner steps) ∧
      (∀ e : Expr, LoopProgresses fun steps => suffixes g inner steps e) ∧
      (LoopProgresses fun steps => chain g steps) ∧
      ∀ isNative : String → Bool, LoopProgresses fun steps => declarations isNative steps) ∧
    (∀ (source : String) (file : Option String) (start : Lexer) (calls : List (String → Bool)),
      Lexer.ofSource source file = .ok start →
        (statementsOf calls start).length ≤ source.length) := by
  refine ⟨fun lexer steps hsteps => ?_, fun isNative lexer steps hsteps => ?_,
    fun lexer e stop hrun => ?_, fun isNative lexer s stop => exists_passes_of_statement,
    fun n inner => ?_, fun source file start calls hstart => ?_⟩
  · have henough := Nat.le_trans (left_le_characters lexer) hsteps
    exact ⟨expressionIn_ne_exhausted henough, expressionIn_eq henough⟩
  · have henough := Nat.le_trans (left_le_characters lexer) hsteps
    exact ⟨statementIn_ne_exhausted isNative henough, statementIn_eq isNative henough⟩
  · obtain ⟨ks, hcount, hks⟩ := expressionIn_takes (stepsFor lexer) lexer e stop hrun
    exact ⟨ks, List.ne_nil_of_length_pos hcount, hks⟩
  · exact ⟨separated_progresses (nextParam_takes n),
      separated_progresses fun _ => expressionIn_takes n,
      separated_progresses fun _ => expressionIn_takes n,
      separated_progresses fun _ => entry_takes n,
      separated_progresses fun _ => binding_takes n inner, separated_progresses itemName_takes,
      clauses_progress n inner, suffixes_progress n inner, chain_progresses n,
      declarations_progress⟩
  · exact Nat.le_trans (length_statementsOf_le calls start) (Lexer.left_ofSource hstart)

/-- A declaration, a `use` statement and a declaration that is cut off: nine calls give two
statements. -/
theorem parsing_always_progresses_cutOff :
    let source := "let f(x, [y]) = x use \"g\" let h(\x7ba: ["
    let calls : List (String → Bool) := List.replicate 9 fun _ => false
    ∃ start, Lexer.ofSource source none = .ok start ∧ (statementsOf calls start).length = 2 ∧
      (statementsOf calls start).length ≤ source.length := by
  intro source calls
  have htwo : ((Lexer.ofSource source none).toOption.any fun start =>
      (statementsOf calls start).length == 2) = true := by decide +kernel
  cases hstart : Lexer.ofSource source none with
  | error e =>
    rw [hstart] at htwo
    cases htwo
  | ok start =>
    rw [hstart, Except.toOption, Option.any_some] at htwo
    obtain ⟨-, -, -, -, -, hcount⟩ := parsing_always_progresses
    exact ⟨start, rfl, beq_iff_eq.mp htwo, hcount source none start calls hstart⟩

end Parse

end Clausal
