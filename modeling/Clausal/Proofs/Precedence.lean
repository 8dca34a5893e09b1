import Clausal.Proofs.Progress

/-!
# Precedence

Operands are read as a flat chain with operators between them, and `Expr.join` makes a tree of it.
Which tree that is does not depend on how it is made. `Joined` is a tree over the operands of a
chain, which are left as they are, and of all of them there is one that has the chain as its
reading from left to right and in which every operator binds looser than those right of it and no
tighter than those left of it.

* `Joined.eq_of_reading_eq`: two such trees with one reading are equal. The operator at the root is
  the last of the loosest ones of the chain.
* `Joined.exists_join`: `Expr.join` makes such a tree. The operands that wait for their right side
  are a stack of trees on which the strength of the operators rises (`Joined.Rising`). Closing it
  gives the tree of what has been read so far, and settling changes nothing about that.
* `Yard.run_eq`: the tree may be made with a stack of operands and one of operators. There are
  always operands enough, and one is left in the end.
* `Parse.expression_of_follows` and `Parse.expressionIn_eq_ok`: an expression is made of all the
  operands and operators in front of the parser, and of nothing else.
-/

namespace Clausal

/-- A tree over the operands of a chain. Whatever an operand is made of, it is a leaf. -/
inductive Joined where
  | operand (e : Expr)
  | node (op : BinaryOp) (left right : Joined)

namespace Joined

/-- The expression that a tree stands for. -/
def expr : Joined → Expr
  | operand e => e
  | node op left right => .binary op left.expr right.expr

/-- The operands and operators of a tree from left to right. -/
def reading : Joined → List (Expr ⊕ BinaryOp)
  | operand e => [.inl e]
  | node op left right => left.reading ++ .inr op :: right.reading

/-- The operator at the root, if there is one, has at least this strength. -/
def Binds (strength : Nat) : Joined → Prop
  | operand _ => True
  | node op _ _ => strength ≤ op.precedence

/-- At every node the left side binds at least as tightly as it does, and the right side tighter. -/
def Ordered : Joined → Prop
  | operand _ => True
  | node op left right =>
    left.Binds op.precedence ∧ right.Binds (op.precedence + 1) ∧ left.Ordered ∧ right.Ordered

/-- A chain from left to right. -/
def words (first : Expr) (rest : List (BinaryOp × Expr)) : List (Expr ⊕ BinaryOp) :=
  .inl first :: rest.flatMap fun (op, e) => [.inr op, .inl e]

variable {t u : Joined} {n : Nat}

/-! ## One tree -/

/-- Nothing in an ordered tree binds looser than its root. -/
theorem le_precedence_of_mem (ht : t.Ordered) (hn : t.Binds n) {op : BinaryOp}
    (hop : .inr op ∈ t.reading) : n ≤ op.precedence := by
  induction t generalizing n with
  | operand e => simp [reading] at hop
  | node root left right ihl ihr =>
    obtain ⟨hleft, hright, hl, hr⟩ := ht
    simp only [Binds] at hn
    simp only [reading, List.mem_append, List.mem_cons, Sum.inr.injEq] at hop
    rcases hop with hop | rfl | hop
    · have := ihl hl hleft hop
      omega
    · exact hn
    · have := ihr hr hright hop
      omega

/-- The operator at the root of one ordered tree does not stand left of that of another one with the
same reading: it would bind tighter there, and here no tighter. -/
theorem not_before {op op' : BinaryOp} {left right left' right' : Joined}
    (h : (node op left right).Ordered) (h' : (node op' left' right').Ordered)
    {between : List (Expr ⊕ BinaryOp)} (hleft : left'.reading = left.reading ++ .inr op :: between)
    (hright : right.reading = between ++ .inr op' :: right'.reading) : False := by
  obtain ⟨-, hr, -, hright_ordered⟩ := h
  obtain ⟨hl', -, hleft_ordered, -⟩ := h'
  have htighter : op.precedence + 1 ≤ op'.precedence :=
    le_precedence_of_mem hright_ordered hr (by simp [hright])
  have hlooser : op'.precedence ≤ op.precedence :=
    le_precedence_of_mem hleft_ordered hl' (by simp [hleft])
  omega

/-- Ordered trees with one reading are equal. -/
theorem eq_of_reading_eq (ht : t.Ordered) (hu : u.Ordered) (h : t.reading = u.reading) : t = u := by
  have hno_operator (op : BinaryOp) (left right : Joined) (e : Expr) :
      (node op left right).reading ≠ [.inl e] := by
    intro heq
    have hop : .inr op ∈ (node op left right).reading := by simp [reading]
    simp [heq] at hop
  induction t generalizing u with
  | operand e =>
    cases u with
    | operand e' => simpa [reading] using h
    | node op' left' right' => exact absurd h.symm (hno_operator op' left' right' e)
  | node op left right ihl ihr =>
    cases u with
    | operand e' => exact absurd h (hno_operator op left right e')
    | node op' left' right' =>
      simp only [reading] at h
      -- the two roots stand at one place of the reading, or one of them stands left of the other
      rcases List.append_eq_append_iff.mp h with ⟨between, hl, hr⟩ | ⟨between, hl, hr⟩
      · cases between with
        | nil =>
          simp only [List.append_nil, List.nil_append, List.cons.injEq, Sum.inr.injEq] at hl hr
          rw [hr.1, ihl ht.2.2.1 hu.2.2.1 hl.symm, ihr ht.2.2.2 hu.2.2.2 hr.2]
        | cons w between =>
          simp only [List.cons_append, List.cons.injEq] at hr
          exact (not_before ht hu (hr.1 ▸ hl) hr.2).elim
      · cases between with
        | nil =>
          simp only [List.append_nil, List.nil_append, List.cons.injEq, Sum.inr.injEq] at hl hr
          rw [hr.1, ihl ht.2.2.1 hu.2.2.1 hl, ihr ht.2.2.2 hu.2.2.2 hr.2.symm]
        | cons w between =>
          simp only [List.cons_append, List.cons.injEq] at hr
          exact (not_before hu ht (hr.1 ▸ hl) hr.2).elim

/-! ## The trees that wait -/

/-- Trees that wait for their right side, the latest first. -/
abbrev Stack := List (Joined × BinaryOp)

/-- The operands that a stack of trees stands for. -/
def waiting (stack : Stack) : Expr.Waiting := stack.map fun (t, op) => (t.expr, op)

/-- The tree in which everything that waits has got its right side. -/
def close : Stack → Joined → Joined
  | [], t => t
  | (left, op) :: stack, t => close stack (.node op left t)

/-- The strength from which on a right side binds tighter than the latest operator. -/
def floor : Stack → Nat
  | [] => 0
  | (_, op) :: _ => op.precedence + 1

/-- The trees are ordered, none binds looser than its operator, and each operator binds tighter than
those before it. -/
def Rising : Stack → Prop
  | [] => True
  | (left, op) :: stack =>
    left.Ordered ∧ left.Binds op.precedence ∧ floor stack ≤ op.precedence ∧ Rising stack

theorem reading_close {words : List (Expr ⊕ BinaryOp)} (h : u.reading = t.reading ++ words)
    (stack : Stack) : (close stack u).reading = (close stack t).reading ++ words := by
  induction stack generalizing t u with
  | nil => exact h
  | cons w stack ih =>
    obtain ⟨left, op⟩ := w
    exact ih (by simp [reading, h])

/-- What settling leaves is still ordered and closes to the same tree; nothing that waits binds as
tightly as `strength`, and what it waits for does. -/
theorem exists_settle (strength : Nat) {stack : Stack} (hstack : Rising stack) (ht : t.Ordered)
    (hfloor : t.Binds (floor stack)) (hstrength : t.Binds strength) :
    ∃ stack' t', Expr.settle strength (waiting stack) t.expr = (waiting stack', t'.expr) ∧
      close stack' t' = close stack t ∧ Rising stack' ∧ floor stack' ≤ strength ∧
      t'.Ordered ∧ t'.Binds strength := by
  induction stack generalizing t with
  | nil => exact ⟨[], t, rfl, rfl, trivial, Nat.zero_le _, ht, hstrength⟩
  | cons w stack ih =>
    obtain ⟨left, op⟩ := w
    obtain ⟨hleft, hbinds, hlower, hrising⟩ := hstack
    simp only [waiting, List.map_cons, Expr.settle]
    by_cases htight : strength ≤ op.precedence
    · rw [if_pos htight]
      exact ih (t := node op left t) hrising ⟨hbinds, hfloor, hleft, ht⟩ hlower htight
    · rw [if_neg htight]
      refine ⟨(left, op) :: stack, t, rfl, rfl, ⟨hleft, hbinds, hlower, hrising⟩, ?_, ht, hstrength⟩
      simp only [floor]
      omega

/-- One more operator and operand: what waits is rising again, and the tree of what has been read
has them at its right end. -/
theorem exists_extend {stack : Stack} (hstack : Rising stack) (e : Expr)
    (next : BinaryOp × Expr) :
    ∃ stack', Expr.extend (waiting stack, e) next = (waiting stack', next.2) ∧ Rising stack' ∧
      (close stack' (operand next.2)).reading =
        (close stack (operand e)).reading ++ [.inr next.1, .inl next.2] := by
  obtain ⟨stack', t', hsettle, hclose, hrising, hfloor, hordered, hbinds⟩ :=
    exists_settle (t := operand e) next.1.precedence hstack trivial trivial trivial
  simp only [expr] at hsettle
  refine ⟨(t', next.1) :: stack', ?_, ⟨hordered, hbinds, hfloor, hrising⟩, ?_⟩
  · rw [Expr.extend, hsettle]
    rfl
  · rw [← hclose, close]
    exact reading_close (by simp [reading]) stack'

/-- So it is after any number of them. -/
theorem exists_foldl_extend {stack : Stack} (hstack : Rising stack) (e : Expr)
    (rest : List (BinaryOp × Expr)) :
    ∃ stack' e', rest.foldl Expr.extend (waiting stack, e) = (waiting stack', e') ∧
      Rising stack' ∧ (close stack' (operand e')).reading =
        (close stack (operand e)).reading ++ rest.flatMap fun (op, e) => [.inr op, .inl e] := by
  induction rest generalizing stack e with
  | nil => exact ⟨stack, e, rfl, hstack, by simp⟩
  | cons next rest ih =>
    obtain ⟨stack₁, hextend, hrising₁, hreading₁⟩ := exists_extend hstack e next
    obtain ⟨stack₂, e₂, hfold, hrising₂, hreading₂⟩ := ih hrising₁ next.2
    refine ⟨stack₂, e₂, ?_, hrising₂, ?_⟩
    · rw [List.foldl_cons, hextend, hfold]
    · rw [hreading₂, hreading₁, List.flatMap_cons, List.append_assoc]

/-- Joining a chain makes an ordered tree that has the chain as its reading. -/
theorem exists_join (first : Expr) (rest : List (BinaryOp × Expr)) :
    ∃ t : Joined, t.expr = Expr.join first rest ∧ t.reading = words first rest ∧ t.Ordered := by
  have hempty : Rising [] := trivial
  obtain ⟨stack, e, hfold, hrising, hreading⟩ := exists_foldl_extend hempty first rest
  obtain ⟨stack', t, hsettle, hclose, -, hfloor, hordered, -⟩ :=
    exists_settle (t := operand e) 0 hrising trivial trivial trivial
  -- no operator is as loose as nothing, so nothing waits any more
  have hnil : stack' = [] := by
    cases stack' with
    | nil => rfl
    | cons w stack' => simp [floor] at hfloor
  subst hnil
  simp only [close] at hclose
  refine ⟨t, ?_, ?_, hordered⟩
  · have hstate : rest.foldl Expr.extend ([], first) = (waiting stack, e) := hfold
    simp only [expr] at hsettle
    simp [Expr.join, hstate, hsettle]
  · rw [hclose, hreading]
    rfl

end Joined

/-! ## Two stacks -/

/-- The operands and the operators that have been read and not used up, the latest first. -/
structure Yard where
  operands : List Expr
  operators : List BinaryOp

namespace Yard

/-- Replace the two latest operands by what the operator makes of them. There may be too few. -/
def reduce (op : BinaryOp) : List Expr → Option (List Expr)
  | right :: left :: operands => some (.binary op left right :: operands)
  | _ => none

/-- Reduce as long as the latest operator binds at least as tightly as `strength`. -/
def unwind (strength : Nat) : List BinaryOp → List Expr → Option Yard
  | [], operands => some ⟨operands, []⟩
  | op :: operators, operands =>
    if strength ≤ op.precedence then (reduce op operands).bind (unwind strength operators)
    else some ⟨operands, op :: operators⟩

/-- Read one more operator and operand. -/
def read (yard : Yard) (next : BinaryOp × Expr) : Option Yard :=
  (unwind next.1.precedence yard.operators yard.operands).map fun yard =>
    ⟨next.2 :: yard.operands, next.1 :: yard.operators⟩

/-- Read a chain and reduce what is left. -/
def run (first : Expr) (rest : List (BinaryOp × Expr)) : Option Yard :=
  (rest.foldlM read ⟨[first], []⟩).bind fun yard => unwind 0 yard.operators yard.operands

/-- The operands that wait, each with its operator, on two stacks. -/
def ofState (state : Expr.Waiting × Expr) : Yard :=
  ⟨state.2 :: state.1.map (·.1), state.1.map (·.2)⟩

theorem unwind_eq (strength : Nat) (waiting : Expr.Waiting) (e : Expr) :
    unwind strength (ofState (waiting, e)).operators (ofState (waiting, e)).operands =
      some (ofState (Expr.settle strength waiting e)) := by
  induction waiting generalizing e with
  | nil => rfl
  | cons w waiting ih =>
    obtain ⟨left, op⟩ := w
    by_cases h : strength ≤ op.precedence
    · have hnext := ih (.binary op left e)
      simp only [ofState, List.map_cons, unwind, Expr.settle, if_pos h, reduce, Option.bind_some]
        at hnext ⊢
      exact hnext
    · simp [ofState, unwind, Expr.settle, h]

theorem read_eq (state : Expr.Waiting × Expr) (next : BinaryOp × Expr) :
    (ofState state).read next = some (ofState (Expr.extend state next)) := by
  rw [read, unwind_eq]
  rfl

theorem foldlM_read (rest : List (BinaryOp × Expr)) (state : Expr.Waiting × Expr) :
    rest.foldlM read (ofState state) = some (ofState (rest.foldl Expr.extend state)) := by
  induction rest generalizing state with
  | nil => rfl
  | cons next rest ih =>
    rw [List.foldlM_cons, read_eq, List.foldl_cons, ← ih]
    rfl

theorem settle_zero (waiting : Expr.Waiting) (e : Expr) : (Expr.settle 0 waiting e).1 = [] := by
  induction waiting generalizing e with
  | nil => rfl
  | cons w waiting ih =>
    obtain ⟨left, op⟩ := w
    rw [Expr.settle, if_pos (Nat.zero_le _)]
    exact ih _

/-- Reducing never lacks an operand, and the one that is left is the expression. -/
theorem run_eq (first : Expr) (rest : List (BinaryOp × Expr)) :
    run first rest = some ⟨[Expr.join first rest], []⟩ := by
  have hread : rest.foldlM read ⟨[first], []⟩ =
      some (ofState (rest.foldl Expr.extend ([], first))) := foldlM_read rest ([], first)
  rw [run, hread, Option.bind_some, unwind_eq]
  simp [ofState, settle_zero, Expr.join]

end Yard

/-! ## Parsing -/

namespace Parse

/-- From one lexer to another: operators, each with an operand behind it, up to a token that is no
operator. -/
inductive Follows (operand : Parse Expr) : Lexer → List (BinaryOp × Expr) → Lexer → Prop
  | stop {lexer : Lexer} (hend : BinaryOp.ofToken? lexer.current.kind = none) :
      Follows operand lexer [] lexer
  | next {lexer behind past stop : Lexer} {op : BinaryOp} {e : Expr}
      {rest : List (BinaryOp × Expr)} (hop : BinaryOp.ofToken? lexer.current.kind = some op)
      (hadvance : advance lexer = .ok () behind) (hoperand : operand behind = .ok e past)
      (hrest : Follows operand past rest stop) : Follows operand lexer ((op, e) :: rest) stop

/-- The operand parser that an expression from this lexer on uses. -/
def operandFor (lexer : Lexer) : Parse Expr := operandIn (stepsFor lexer - 1)

variable {g : Grammar} {steps : Nat} {lexer stop : Lexer} {e : Expr}
  {rest : List (BinaryOp × Expr)}

theorem follows_of_chain (h : chain g steps lexer = .ok rest stop) :
    Follows g.operand lexer rest stop := by
  induction steps generalizing lexer rest with
  | zero => cases h
  | succ steps ih =>
    have hkind : kind lexer = .ok lexer.current.kind lexer := rfl
    rw [chain, Run.bind_ok hkind] at h
    cases hop : BinaryOp.ofToken? lexer.current.kind with
    | some op =>
      rw [hop] at h
      obtain ⟨_, behind, hadvance, h⟩ := Run.bind_eq_ok_iff.mp h
      obtain ⟨e, past, hoperand, h⟩ := Run.bind_eq_ok_iff.mp h
      obtain ⟨rest, last, hrest, h⟩ := Run.bind_eq_ok_iff.mp h
      cases h
      exact .next hop hadvance hoperand (ih hrest)
    | none =>
      rw [hop] at h
      cases h
      exact .stop hop

/-- A chain is read as what follows, unless there are too few steps for it. -/
theorem chain_of_follows (h : Follows g.operand lexer rest stop)
    (hsteps : chain g steps lexer ≠ .exhausted) : chain g steps lexer = .ok rest stop := by
  induction h generalizing steps with
  | @stop lexer hend =>
    cases steps with
    | zero => exact absurd rfl hsteps
    | succ steps =>
      have hkind : kind lexer = .ok lexer.current.kind lexer := rfl
      rw [chain, Run.bind_ok hkind, hend]
      rfl
  | @next lexer behind past stop op e rest hop hadvance hoperand _ ih =>
    cases steps with
    | zero => exact absurd rfl hsteps
    | succ steps =>
      have hkind : kind lexer = .ok lexer.current.kind lexer := rfl
      rw [chain, Run.bind_ok hkind, hop] at hsteps ⊢
      simp only [Run.bind_ok hadvance, Run.bind_ok hoperand] at hsteps ⊢
      have hrest : chain g steps past = .ok rest stop :=
        ih fun hnone => hsteps (Run.bind_exhausted hnone)
      rw [Run.bind_ok hrest]
      rfl

/-- An expression is the tree of the chain in front of the parser, or a comprehension over it. -/
theorem expressionIn_eq_ok (h : expressionIn (steps + 1) lexer = .ok e stop) :
    ∃ first middle rest last, operandIn steps lexer = .ok first middle ∧
      Follows (operandIn steps) middle rest last ∧
      (last.current.kind.isMark .dollar = false ∧ e = Expr.join first rest ∧ stop = last ∨
        last.current.kind.isMark .dollar = true ∧
          ∃ name filter map, e = .comprehension name (Expr.join first rest) filter map) := by
  rw [expressionIn, expressionWith] at h
  obtain ⟨first, middle, hfirst, h⟩ := Run.bind_eq_ok_iff.mp h
  obtain ⟨rest, last, hrest, h⟩ := Run.bind_eq_ok_iff.mp h
  obtain ⟨dollar, _, hsees, h⟩ := Run.bind_eq_ok_iff.mp h
  cases hsees
  refine ⟨first, middle, rest, last, hfirst, follows_of_chain hrest, ?_⟩
  by_cases hdollar : last.current.kind.isMark .dollar = true
  · rw [if_pos hdollar] at h
    obtain ⟨_, _, -, h⟩ := Run.bind_eq_ok_iff.mp h
    obtain ⟨name, _, -, h⟩ := Run.bind_eq_ok_iff.mp h
    obtain ⟨filter, _, -, h⟩ := Run.bind_eq_ok_iff.mp h
    obtain ⟨map, _, -, h⟩ := Run.bind_eq_ok_iff.mp h
    cases h
    exact .inr ⟨hdollar, name, filter, map, rfl⟩
  · rw [if_neg hdollar] at h
    cases h
    exact .inl ⟨by simpa using hdollar, rfl, rfl⟩

/-- A chain in front of the parser is read as its tree, whatever operators are in it. -/
theorem expression_of_follows {first : Expr} {middle last : Lexer}
    (hfirst : operandFor lexer lexer = .ok first middle)
    (hrest : Follows (operandFor lexer) middle rest last)
    (hend : last.current.kind.isMark .dollar = false) :
    expression lexer = .ok (Expr.join first rest) last := by
  obtain ⟨steps, hsteps⟩ : ∃ steps, stepsFor lexer = steps + 1 :=
    ⟨stepsFor lexer - 1, by unfold stepsFor; omega⟩
  have henough : 2 * (lexer.left + 1) ≤ steps := by
    unfold stepsFor at hsteps
    unfold Lexer.left
    split <;> omega
  rw [operandFor, hsteps, Nat.add_sub_cancel] at hfirst hrest
  have hhalts := grammar_halts henough
  have hless : middle.left < lexer.left := by
    have hoperand := hhalts.operand lexer (Nat.lt_succ_self _)
    simp only [Halts, hfirst] at hoperand
    exact hoperand
  have hchain : chain ⟨expressionIn steps, operandIn steps⟩ steps middle ≠ .exhausted := by
    intro hnone
    have hmore : Halts (chain _ steps) middle _ := chain_halts hhalts (by omega) (by omega)
    simp only [Halts, hnone] at hmore
  have hsees : sees .dollar last = .ok false last := congrArg (Outcome.ok · last) hend
  rw [expression, hsteps, expressionIn, expressionWith, Run.bind_ok hfirst,
    Run.bind_ok (chain_of_follows hrest hchain), Run.bind_ok hsees]
  rfl

end Parse

/-! ## Main statement -/

/-- A chain of operands and operators has exactly one tree that has the chain as its reading and is
ordered by precedence, and joining makes it. Two stacks make it too: reducing never lacks an operand
and nothing else is left in the end. And it is what the parser makes of the operands and operators
in front of it, before it looks for a comprehension. -/
theorem Joined.chain_has_one_tree :
    (∀ (first : Expr) (rest : List (BinaryOp × Expr)), ∃ t : Joined,
      t.expr = Expr.join first rest ∧ t.reading = words first rest ∧ t.Ordered ∧
        ∀ u : Joined, u.reading = words first rest → u.Ordered → u = t) ∧
    (∀ (first : Expr) (rest : List (BinaryOp × Expr)),
      Yard.run first rest = some ⟨[Expr.join first rest], []⟩) ∧
    (∀ (lexer middle last : Lexer) (first : Expr) (rest : List (BinaryOp × Expr)),
      Parse.operandFor lexer lexer = .ok first middle →
      Parse.Follows (Parse.operandFor lexer) middle rest last →
      last.current.kind.isMark .dollar = false →
        Parse.expression lexer = .ok (Expr.join first rest) last) ∧
    (∀ (steps : Nat) (lexer stop : Lexer) (e : Expr),
      Parse.expressionIn (steps + 1) lexer = .ok e stop →
        ∃ first middle rest last, Parse.operandIn steps lexer = .ok first middle ∧
          Parse.Follows (Parse.operandIn steps) middle rest last ∧
          (last.current.kind.isMark .dollar = false ∧ e = Expr.join first rest ∧ stop = last ∨
            last.current.kind.isMark .dollar = true ∧
              ∃ name filter map, e = .comprehension name (Expr.join first rest) filter map)) := by
  refine ⟨fun first rest => ?_, Yard.run_eq, ?_, ?_⟩
  · obtain ⟨t, hexpr, hreading, hordered⟩ := exists_join first rest
    refine ⟨t, hexpr, hreading, hordered, fun u hu huo => ?_⟩
    exact eq_of_reading_eq huo hordered (hu.trans hreading.symm)
  · intro lexer middle last first rest hfirst hrest hend
    exact Parse.expression_of_follows hfirst hrest hend
  · intro steps lexer stop e h
    exact Parse.expressionIn_eq_ok h

/-- `a - b * c - d`: the product first, and of the differences the left one. -/
theorem Joined.chain_has_one_tree_differences :
    ∃ start middle stop first rest, Lexer.ofSource "a - b * c - d" none = .ok start ∧
      Parse.operandFor start start = .ok first middle ∧
      Parse.Follows (Parse.operandFor start) middle rest stop ∧
      Parse.expression start = .ok (Expr.join first rest) stop ∧
      Expr.join first rest = .binary .subtract
        (.binary .subtract (.free "a") (.binary .multiply (.free "b") (.free "c"))) (.free "d") ∧
      ∃ t : Joined, t.expr = Expr.join first rest ∧
        ∀ u : Joined, u.reading = t.reading → u.Ordered → u = t := by
  obtain ⟨hone, -, hmakes, hmade⟩ := Joined.chain_has_one_tree
  have hrun : (Lexer.ofSource "a - b * c - d" none).toOption.any (fun start =>
      match Parse.expression start with
      | .ok (.binary .subtract (.binary .subtract (.symbol "a" .unresolved)
          (.binary .multiply (.symbol "b" .unresolved) (.symbol "c" .unresolved)))
          (.symbol "d" .unresolved)) stop => !stop.current.kind.isMark .dollar
      | _ => false) = true := by decide +kernel
  cases hstart : Lexer.ofSource "a - b * c - d" none with
  | error _ =>
    rw [hstart] at hrun
    cases hrun
  | ok start =>
    rw [hstart, Except.toOption, Option.any_some] at hrun
    split at hrun
    · next stop hexpression =>
      have hsteps : Parse.stepsFor start = Parse.stepsFor start - 1 + 1 := by
        unfold Parse.stepsFor
        omega
      have hin := hexpression
      rw [Parse.expression, hsteps] at hin
      obtain ⟨first, middle, rest, last, hfirst, hrest, hend⟩ := hmade _ start stop _ hin
      rcases hend with ⟨hdollar, hjoin, rfl⟩ | ⟨-, name, filter, map, hcomprehension⟩
      · obtain ⟨t, hexpr, hreading, -, honly⟩ := hone first rest
        exact ⟨start, middle, stop, first, rest, rfl, hfirst, hrest,
          hmakes start middle stop first rest hfirst hrest hdollar, hjoin.symm, t, hexpr,
          fun u hu => honly u (hu.trans hreading)⟩
      · cases hcomprehension
    · cases hrun

end Clausal
