import Clausal.Proofs.HigherOrder

/-!
# Signatures

A built-in function looks at its arguments after it has checked them. The check and the look ask for
the same, so whatever is written for arguments of other types is never reached.

* `Arguments.Fits`, `Arguments.FirstMisfit`: what a check wants, said of every argument, and the
  first argument that it does not hold of. `Arguments.mismatch?` finds it.
* `Native.Task`: work on arguments of the right types, which leaves nothing to check. `Native.Takes`
  says which task a call comes to, and `Native.Accepts` whether it comes to one.
* `Native.handle`: the built-in functions with a default in every place where an argument might be
  of another type, whatever the defaults do.
* `Native.defaults_are_never_used`: a call is a task, or a complaint about the first argument that
  does not fit; it is the same for all defaults.
-/

namespace Clausal

/-! ## Types -/

@[simp]
theorem ArgumentType.accepts_exactly_iff {type given : ValueType} :
    (exactly type).accepts given = true ↔ given = type := by
  rw [accepts, beq_iff_eq, eq_comm]

@[simp]
theorem ArgumentType.accepts_any (given : ValueType) : any.accepts given = true := rfl

namespace Value

variable {v : Value}

@[simp]
theorem type_eq_number_iff : v.type = .number ↔ ∃ n, v = .number n := by cases v <;> simp [type]

@[simp]
theorem type_eq_string_iff : v.type = .string ↔ ∃ s, v = .text s := by cases v <;> simp [type]

@[simp]
theorem type_eq_function_iff : v.type = .function ↔ ∃ f, v = .function f := by
  cases v <;> simp [type]

@[simp]
theorem type_eq_list_iff : v.type = .list ↔ ∃ xs, v = .list xs := by cases v <;> simp [type]

@[simp]
theorem type_eq_map_iff : v.type = .map ↔ ∃ t, v = .map t := by cases v <;> simp [type]

end Value

/-! ## The check -/

namespace Arguments

variable {args vs : List Value} {wanted ts : List ArgumentType} {v : Value} {t : ArgumentType}
  {i : Nat}

/-- There are as many arguments as wanted, and each is of the type wanted in its place. -/
structure Fits (args : List Value) (wanted : List ArgumentType) : Prop where
  length_eq : args.length = wanted.length
  accepts (i : Nat) (v : Value) (t : ArgumentType) (harg : args[i]? = some v)
    (hwanted : wanted[i]? = some t) : t.accepts v.type = true

/-- What can be wrong with argument number `i`. -/
inductive Misfit (args : List Value) (wanted : List ArgumentType) (i : Nat) : Prop
  | missing {t : ArgumentType} (harg : args[i]? = none) (hwanted : wanted[i]? = some t)
  | superfluous {v : Value} (harg : args[i]? = some v) (hwanted : wanted[i]? = none)
  | type {v : Value} {t : ArgumentType} (harg : args[i]? = some v) (hwanted : wanted[i]? = some t)
    (h : t.accepts v.type = false)

/-- Argument number `i` is the first one with which something is wrong. -/
def FirstMisfit (args : List Value) (wanted : List ArgumentType) (i : Nat) : Prop :=
  Misfit args wanted i ∧ ∀ j < i, ¬ Misfit args wanted j

@[simp]
theorem fits_nil_iff : Fits args [] ↔ args = [] := by
  constructor
  · intro h
    exact List.length_eq_zero_iff.mp h.length_eq
  · rintro rfl
    exact ⟨rfl, by simp⟩

@[simp]
theorem fits_cons_cons_iff :
    Fits (v :: vs) (t :: ts) ↔ t.accepts v.type = true ∧ Fits vs ts := by
  constructor
  · rintro ⟨hlength, haccepts⟩
    refine ⟨haccepts 0 v t rfl rfl, by simpa using hlength, fun i w u hw hu => ?_⟩
    exact haccepts (i + 1) w u hw hu
  · rintro ⟨ht, hlength, haccepts⟩
    refine ⟨by simpa using hlength, fun i w u hw hu => ?_⟩
    cases i with
    | zero =>
      cases hw
      cases hu
      exact ht
    | succ i => exact haccepts i w u hw hu

@[simp]
theorem not_fits_nil_cons : ¬ Fits [] (t :: ts) := fun h => by cases h.length_eq

theorem fits_one_iff : Fits args [t] ↔ ∃ a, args = [a] ∧ t.accepts a.type = true := by
  rcases args with _ | ⟨a, _ | ⟨b, rest⟩⟩ <;> simp

theorem fits_two_iff {t₁ t₂ : ArgumentType} :
    Fits args [t₁, t₂] ↔
      ∃ a b, args = [a, b] ∧ t₁.accepts a.type = true ∧ t₂.accepts b.type = true := by
  rcases args with _ | ⟨a, _ | ⟨b, _ | ⟨c, rest⟩⟩⟩ <;> simp [and_assoc]

theorem fits_three_iff {t₁ t₂ t₃ : ArgumentType} :
    Fits args [t₁, t₂, t₃] ↔
      ∃ a b c, args = [a, b, c] ∧ t₁.accepts a.type = true ∧ t₂.accepts b.type = true ∧
        t₃.accepts c.type = true := by
  rcases args with _ | ⟨a, _ | ⟨b, _ | ⟨c, _ | ⟨d, rest⟩⟩⟩⟩ <;> simp [and_assoc]

theorem fits_function_list_iff :
    Fits args [.exactly .function, .exactly .list] ↔ ∃ f xs, args = [.function f, .list xs] := by
  rw [fits_two_iff]
  constructor
  · rintro ⟨a, b, rfl, ha, hb⟩
    obtain ⟨f, rfl⟩ := Value.type_eq_function_iff.mp (ArgumentType.accepts_exactly_iff.mp ha)
    obtain ⟨xs, rfl⟩ := Value.type_eq_list_iff.mp (ArgumentType.accepts_exactly_iff.mp hb)
    exact ⟨f, xs, rfl⟩
  · rintro ⟨f, xs, rfl⟩
    exact ⟨_, _, rfl, rfl, rfl⟩

theorem misfit_zero_iff : Misfit (v :: vs) (t :: ts) 0 ↔ t.accepts v.type = false := by
  constructor
  · rintro (⟨harg, -⟩ | ⟨-, hwanted⟩ | ⟨harg, hwanted, h⟩)
    · cases harg
    · cases hwanted
    · cases harg
      cases hwanted
      exact h
  · exact .type rfl rfl

theorem misfit_succ_iff : Misfit (v :: vs) (t :: ts) (i + 1) ↔ Misfit vs ts i := by
  constructor
  · rintro (⟨harg, hwanted⟩ | ⟨harg, hwanted⟩ | ⟨harg, hwanted, h⟩)
    · exact .missing harg hwanted
    · exact .superfluous harg hwanted
    · exact .type harg hwanted h
  · rintro (⟨harg, hwanted⟩ | ⟨harg, hwanted⟩ | ⟨harg, hwanted, h⟩)
    · exact .missing harg hwanted
    · exact .superfluous harg hwanted
    · exact .type harg hwanted h

theorem firstMisfit_iff_of_zero (h : Misfit args wanted 0) : FirstMisfit args wanted i ↔ 0 = i := by
  constructor
  · rintro ⟨-, hfirst⟩
    cases i with
    | zero => rfl
    | succ i => exact absurd h (hfirst 0 (by omega))
  · rintro rfl
    exact ⟨h, by simp⟩

theorem firstMisfit_succ_iff (h : t.accepts v.type = true) :
    FirstMisfit (v :: vs) (t :: ts) (i + 1) ↔ FirstMisfit vs ts i := by
  refine and_congr misfit_succ_iff ⟨fun hfirst j hj => ?_, fun hfirst j hj => ?_⟩
  · rw [← misfit_succ_iff (v := v) (t := t)]
    exact hfirst (j + 1) (by omega)
  · cases j with
    | zero => rw [misfit_zero_iff, h, Bool.not_eq_false]
    | succ j =>
      rw [misfit_succ_iff]
      exact hfirst j (by omega)

theorem mismatch?_eq_none_iff : mismatch? args wanted = none ↔ Fits args wanted := by
  fun_induction mismatch? args wanted with
  | case1 => simp
  | case2 v vs t ts h ih => simp [ih, h]
  | case3 v vs t ts h => simp [h]
  | case4 v vs => simp
  | case5 t ts => simp

/-- What is found is the first argument with which something is wrong. -/
theorem mismatch?_eq_some_iff : mismatch? args wanted = some i ↔ FirstMisfit args wanted i := by
  fun_induction mismatch? args wanted generalizing i with
  | case1 =>
    refine iff_of_false (by simp) ?_
    rintro ⟨⟨-, hwanted⟩ | ⟨harg, -⟩ | ⟨harg, -⟩, -⟩
    · cases hwanted
    · cases harg
    · cases harg
  | case2 v vs t ts h ih =>
    cases i with
    | zero => simp [FirstMisfit, misfit_zero_iff, h]
    | succ i => rw [firstMisfit_succ_iff h, ← ih, Option.map_eq_some_iff]; simp
  | case3 v vs t ts h =>
    rw [firstMisfit_iff_of_zero (misfit_zero_iff.mpr (Bool.eq_false_iff.mpr h)), Option.some_inj]
  | case4 v vs => rw [firstMisfit_iff_of_zero (.superfluous rfl rfl), Option.some_inj]
  | case5 t ts => rw [firstMisfit_iff_of_zero (.missing rfl rfl), Option.some_inj]

theorem check_eq_ok_iff {function : String} :
    check function args wanted = .ok () ↔ Fits args wanted := by
  rw [← mismatch?_eq_none_iff, check]
  cases mismatch? args wanted <;> simp

theorem check_eq_error_iff {function : String} {cause : Cause} :
    check function args wanted = .error cause ↔
      ∃ i, FirstMisfit args wanted i ∧ cause = .badArgument function i wanted[i]? := by
  simp only [← mismatch?_eq_some_iff, check]
  cases mismatch? args wanted <;> simp [eq_comm]

theorem fit_iff : fit args wanted = true ↔ Fits args wanted := by
  rw [← mismatch?_eq_none_iff, fit, Option.isNone_iff_eq_none]

/-- Arguments that do not fit have a first one with which something is wrong. -/
theorem exists_firstMisfit (h : ¬ Fits args wanted) : ∃ i, FirstMisfit args wanted i := by
  rw [← mismatch?_eq_none_iff] at h
  obtain ⟨i, hi⟩ := Option.ne_none_iff_exists'.mp h
  exact ⟨i, mismatch?_eq_some_iff.mp hi⟩

end Arguments

open Arguments

namespace Native

/-! ## Tasks -/

/-- Work on arguments of the right types. -/
inductive Task where
  | compute (f : Float → Float) (n : Float)
  | fold (f : Function) (start : Value) (items : List Value)
  | map (f : Function) (xs : Sequence Value)
  | filter (f : Function) (xs : Sequence Value)
  | count (size : Nat)
  | display (v : Value)
  | print (vs : List Value)
  | die (v : Value)
  | rescue (body handler : Function)

/-- The function of one number that a built-in function computes, if it is one. -/
def math? : Native → Option (Float → Float)
  | .sqrt => some Float.sqrt
  | .log => some Float.log
  | .sin => some Float.sin
  | .cos => some Float.cos
  | .tan => some Float.tan
  | .floor => some Float.floor
  | .foldl | .map | .filter | .len | .str | .print | .die | .catch => none

/-- The task that a call comes to, by the types of its arguments. -/
inductive Takes : Native → List Value → Task → Prop
  | compute {fn : Native} {f : Float → Float} (h : fn.math? = some f) (n : Float) :
    Takes fn [.number n] (.compute f n)
  | fold (f : Function) (start : Value) (xs : Sequence Value) :
    Takes .foldl [.function f, start, .list xs] (.fold f start xs.items)
  | foldText (f : Function) (start : Value) (s : String) :
    Takes .foldl [.function f, start, .text s] (.fold f start (Value.characters s))
  | map (f : Function) (xs : Sequence Value) : Takes .map [.function f, .list xs] (.map f xs)
  | filter (f : Function) (xs : Sequence Value) :
    Takes .filter [.function f, .list xs] (.filter f xs)
  | countItems (xs : Sequence Value) : Takes .len [.list xs] (.count xs.size)
  | countCharacters (s : String) : Takes .len [.text s] (.count s.length)
  | countEntries (t : Table Value) : Takes .len [.map t] (.count t.content.size)
  | display (v : Value) : Takes .str [v] (.display v)
  | print (vs : List Value) : Takes .print vs (.print vs)
  | die (v : Value) : Takes .die [v] (.die v)
  | rescue (body handler : Function) :
    Takes .catch [.function body, .function handler] (.rescue body handler)

/-- What `foldl` accepts besides its signature. -/
def foldText : List ArgumentType := [.exactly .function, .any, .exactly .string]

/-- The arguments that a built-in function accepts: those that fit its signature, for `foldl` also a
string in the place of the list, for `len` a string or a map, and for `print` all. -/
def Accepts (fn : Native) (args : List Value) : Prop :=
  match fn with
  | .foldl => Fits args fn.signature ∨ Fits args foldText
  | .len => Fits args fn.signature ∨ Fits args [.exactly .string] ∨ Fits args [.exactly .map]
  | .print => True
  | fn => Fits args fn.signature

section

variable {ε κ : Type} [Catchable ε] (invoke : Invoke ε κ)

/-- Do a task. Nothing in it can turn out to be of the wrong type. -/
def Task.perform : Task → Run ε (Store κ) Value
  | .compute f n => return .number (f n)
  | .fold f start items => foldValues invoke f start items
  | .map f xs => collect xs (mapped invoke f)
  | .filter f xs => collect xs (passed invoke f)
  | .count size => return .number (Float.ofNat size)
  | .display v => return .text v.display
  | .print vs => do
    Run.modify (·.printLine (" ".intercalate (vs.map Value.display)))
    return vs.getLast?.getD .void
  | .die v => Eval.raise (.died v.display)
  | .rescue body handler =>
    Eval.catching (invoke body []) fun cause => invoke handler [.text cause.message]

end

/-! ## Defaults -/

/-- What to go on with where an argument is missing, or is not of the type that it has been checked
for: a value in the place of an argument, and a default for a number, for the value of a call, for
the items of a list and for a size. -/
structure Defaults (ε κ : Type) where
  argument : Value
  number : Run ε (Store κ) Float
  value : Run ε (Store κ) Value
  items : Run ε (Store κ) (List Value)
  size : Run ε (Store κ) Nat

namespace Defaults

/-- Void, not-a-number, void again, no items and the size zero. -/
def usual (ε κ : Type) : Defaults ε κ where
  argument := .void
  number := return 0 / 0
  value := return .void
  items := return []
  size := return 0

variable {ε κ : Type}

/-- The argument of a number. -/
def get (d : Defaults ε κ) (args : List Value) (i : Nat) : Value := args[i]?.getD d.argument

end Defaults

section

variable {ε κ : Type} [Catchable ε] (d : Defaults ε κ) (invoke : Invoke ε κ)

/-- The number that a function of one number is given. -/
def numberArgument (fn : Native) (args : List Value) : Run ε (Store κ) Float := do
  fn.check args
  match d.get args 0 with
  | .number n => return n
  | _ => d.number

/-- A function of one number, with a default. -/
def handleNumber (fn : Native) (f : Float → Float) (args : List Value) :
    Run ε (Store κ) Value := do
  let n ← fn.numberArgument d args
  return .number (f n)

/-- The items that `foldl` goes through. -/
def foldItems (args : List Value) : Run ε (Store κ) (List Value) :=
  match d.get args 2, fit args foldText with
  | .text s, true => return Value.characters s
  | last, _ => do
    Native.foldl.check args
    match last with
    | .list xs => return xs.items
    | _ => d.items

/-- How many items, characters or entries the argument of `len` has. -/
def sizeArgument (args : List Value) : Run ε (Store κ) Nat :=
  match args with
  | [.list xs] => return xs.size
  | [.text s] => return s.length
  | [.map t] => return t.content.size
  | args => do
    Native.len.check args
    d.size

/-- Call a built-in function. Each argument is looked up by its number, and a default stands
wherever the one that is found might be of another type. -/
def handle (fn : Native) (args : List Value) : Run ε (Store κ) Value :=
  match fn with
  | .sqrt => fn.handleNumber d Float.sqrt args
  | .log => fn.handleNumber d Float.log args
  | .sin => fn.handleNumber d Float.sin args
  | .cos => fn.handleNumber d Float.cos args
  | .tan => fn.handleNumber d Float.tan args
  | .floor => fn.handleNumber d Float.floor args
  | .foldl => do
    let items ← foldItems d args
    match d.get args 0 with
    | .function f => foldValues invoke f (d.get args 1) items
    | _ => d.value
  | .map => do
    fn.check args
    match d.get args 0, d.get args 1 with
    | .function f, .list xs => collect xs (mapped invoke f)
    | _, _ => d.value
  | .filter => do
    fn.check args
    match d.get args 0, d.get args 1 with
    | .function f, .list xs => collect xs (passed invoke f)
    | _, _ => d.value
  | .len => do
    let size ← sizeArgument d args
    return .number (Float.ofNat size)
  | .str => do
    fn.check args
    return .text (d.get args 0).display
  | .print => do
    Run.modify (·.printLine (" ".intercalate (args.map Value.display)))
    return args.getLast?.getD .void
  | .die => do
    fn.check args
    Eval.raise (.died (d.get args 0).display)
  | .catch => do
    fn.check args
    match d.get args 0, d.get args 1 with
    | .function body, .function handler =>
      Eval.catching (invoke body []) fun cause => invoke handler [.text cause.message]
    | _, _ => d.value

end

/-! ## How a call goes -/

section

variable {fn : Native} {args : List Value} {task : Task}

/-- A task is for arguments that are accepted. -/
theorem Takes.accepts (h : fn.Takes args task) : fn.Accepts args := by
  cases h with
  | compute h n => cases fn <;> first | exact fits_one_iff.mpr ⟨_, rfl, rfl⟩ | cases h
  | fold => exact .inl (fits_three_iff.mpr ⟨_, _, _, rfl, rfl, rfl, rfl⟩)
  | foldText => exact .inr (fits_three_iff.mpr ⟨_, _, _, rfl, rfl, rfl, rfl⟩)
  | map | filter | rescue => exact fits_two_iff.mpr ⟨_, _, rfl, rfl, rfl⟩
  | countItems => exact .inl (fits_one_iff.mpr ⟨_, rfl, rfl⟩)
  | countCharacters => exact .inr (.inl (fits_one_iff.mpr ⟨_, rfl, rfl⟩))
  | countEntries => exact .inr (.inr (fits_one_iff.mpr ⟨_, rfl, rfl⟩))
  | display | die => exact fits_one_iff.mpr ⟨_, rfl, rfl⟩
  | print => trivial

/-- There is a task for all arguments that are accepted. -/
theorem exists_takes (h : fn.Accepts args) : ∃ task, fn.Takes args task := by
  cases fn with
  | sqrt | log | sin | cos | tan | floor =>
    obtain ⟨a, rfl, ha⟩ := fits_one_iff.mp h
    obtain ⟨n, rfl⟩ := Value.type_eq_number_iff.mp (ArgumentType.accepts_exactly_iff.mp ha)
    exact ⟨_, .compute rfl n⟩
  | foldl =>
    simp only [Accepts, signature, foldText, fits_three_iff, ArgumentType.accepts_exactly_iff,
      Value.type_eq_function_iff, Value.type_eq_list_iff, Value.type_eq_string_iff] at h
    obtain ⟨_, start, _, rfl, ⟨f, rfl⟩, -, xs, rfl⟩ | ⟨_, start, _, rfl, ⟨f, rfl⟩, -, s, rfl⟩ := h
    · exact ⟨_, .fold f start xs⟩
    · exact ⟨_, .foldText f start s⟩
  | map =>
    obtain ⟨f, xs, rfl⟩ := fits_function_list_iff.mp h
    exact ⟨_, .map f xs⟩
  | filter =>
    obtain ⟨f, xs, rfl⟩ := fits_function_list_iff.mp h
    exact ⟨_, .filter f xs⟩
  | len =>
    simp only [Accepts, signature, fits_one_iff, ArgumentType.accepts_exactly_iff,
      Value.type_eq_list_iff, Value.type_eq_string_iff, Value.type_eq_map_iff] at h
    obtain ⟨_, rfl, xs, rfl⟩ | ⟨_, rfl, s, rfl⟩ | ⟨_, rfl, t, rfl⟩ := h
    · exact ⟨_, .countItems xs⟩
    · exact ⟨_, .countCharacters s⟩
    · exact ⟨_, .countEntries t⟩
  | str =>
    obtain ⟨v, rfl, -⟩ := fits_one_iff.mp h
    exact ⟨_, .display v⟩
  | print => exact ⟨_, .print args⟩
  | die =>
    obtain ⟨v, rfl, -⟩ := fits_one_iff.mp h
    exact ⟨_, .die v⟩
  | «catch» =>
    simp only [Accepts, signature, fits_two_iff, ArgumentType.accepts_exactly_iff,
      Value.type_eq_function_iff] at h
    obtain ⟨_, _, rfl, ⟨body, rfl⟩, handler, rfl⟩ := h
    exact ⟨_, .rescue body handler⟩

/-- What fits the signature is accepted. -/
theorem accepts_of_fits (h : Fits args fn.signature) : fn.Accepts args := by
  cases fn with
  | foldl | len => exact .inl h
  | print => trivial
  | sqrt | log | sin | cos | tan | floor | map | filter | str | die | «catch» => exact h

end

section

variable {ε κ : Type} [Catchable ε] {invoke : Invoke ε κ} {fn : Native} {args : List Value}
  {task : Task} {i : Nat}

/-- A task is done as it is. -/
theorem Takes.run_eq (h : fn.Takes args task) : fn.run invoke args = task.perform invoke := by
  cases h with
  | compute h n => cases fn <;> cases h <;> rfl
  | _ => rfl

/-- A task is done as it is, whatever the defaults are. -/
theorem Takes.handle_eq (h : fn.Takes args task) (d : Defaults ε κ) :
    fn.handle d invoke args = task.perform invoke := by
  cases h with
  | compute h n => cases fn <;> cases h <;> rfl
  | _ => rfl

theorem check_of_misfit (h : FirstMisfit args fn.signature i) :
    fn.check args =
      (Eval.raise (.badArgument fn.name i fn.signature[i]?) : Run ε (Store κ) Unit) := by
  rw [check, check_eq_error_iff.mpr ⟨i, h, rfl⟩]
  rfl

/-- Nothing comes after a complaint. -/
theorem check_bind_of_misfit {α : Type} (h : FirstMisfit args fn.signature i)
    (next : Unit → Run ε (Store κ) α) :
    fn.check args >>= next = Eval.raise (.badArgument fn.name i fn.signature[i]?) := by
  rw [check_of_misfit h]
  rfl

/-- Arguments that are not accepted are complained about, and nothing else is done. -/
theorem run_of_misfit (hargs : ¬ fn.Accepts args) (h : FirstMisfit args fn.signature i) :
    fn.run invoke args = Eval.raise (.badArgument fn.name i fn.signature[i]?) := by
  cases fn with
  | foldl =>
    unfold run
    dsimp only
    split
    · next f start s => exact absurd (Takes.foldText f start s).accepts hargs
    · exact check_bind_of_misfit h _
  | len =>
    unfold run
    dsimp only
    split
    · next xs => exact absurd (Takes.countItems xs).accepts hargs
    · next s => exact absurd (Takes.countCharacters s).accepts hargs
    · next t => exact absurd (Takes.countEntries t).accepts hargs
    · exact check_bind_of_misfit h _
  | print => exact absurd trivial hargs
  | sqrt | log | sin | cos | tan | floor | map | filter | str | die | «catch» =>
    exact check_bind_of_misfit h _

theorem foldItems_of_misfit (hargs : ¬ foldl.Accepts args) (h : FirstMisfit args foldl.signature i)
    (d : Defaults ε κ) :
    foldItems d args = Eval.raise (.badArgument foldl.name i foldl.signature[i]?) := by
  unfold foldItems
  split
  · next hfit => exact absurd (.inr (fit_iff.mp hfit)) hargs
  · exact check_bind_of_misfit h _

theorem handle_of_misfit (hargs : ¬ fn.Accepts args) (h : FirstMisfit args fn.signature i)
    (d : Defaults ε κ) :
    fn.handle d invoke args = Eval.raise (.badArgument fn.name i fn.signature[i]?) := by
  cases fn with
  | foldl =>
    unfold handle
    dsimp only
    rw [foldItems_of_misfit hargs h]
    rfl
  | len =>
    unfold handle sizeArgument
    dsimp only
    split
    · next xs => exact absurd (Takes.countItems xs).accepts hargs
    · next s => exact absurd (Takes.countCharacters s).accepts hargs
    · next t => exact absurd (Takes.countEntries t).accepts hargs
    · rw [bind_assoc]
      exact check_bind_of_misfit h _
  | print => exact absurd trivial hargs
  | sqrt | log | sin | cos | tan | floor =>
    unfold handle handleNumber numberArgument
    dsimp only
    rw [bind_assoc]
    exact check_bind_of_misfit h _
  | map | filter | str | die | «catch» => exact check_bind_of_misfit h _

end

/-- The check and the built-in functions, on any arguments. The check passes exactly the arguments
that are as many as wanted and each of the type wanted, and so does its silent form; otherwise its
complaint names the first argument that is missing, superfluous or of another type. A call of a
built-in function either does a task on arguments of the types that it accepts, or makes this
complaint and does nothing else. In neither case do the defaults have a part in it. `foldl` accepts
a string exactly if the two arguments before it fit. -/
theorem defaults_are_never_used (function : String) (args : List Value)
    (wanted : List ArgumentType) :
    (Arguments.check function args wanted = .ok () ↔ Fits args wanted) ∧
    (fit args wanted = true ↔ Fits args wanted) ∧
    (∀ cause, Arguments.check function args wanted = .error cause ↔
      ∃ i, FirstMisfit args wanted i ∧ cause = .badArgument function i wanted[i]? ∧
        cause.kind = .type ∧
        cause.message = "Invalid argument #" ++ toString (i + 1) ++ " to '" ++ function ++
          "', expected " ++ (wanted[i]?.map ArgumentType.text).getD "no argument") ∧
    (∀ (fn : Native) {ε κ : Type} [Catchable ε] (invoke : Invoke ε κ),
      (∀ d, fn.handle d invoke args = fn.run invoke args) ∧
      ((fn.Accepts args ∧ ∃ task, fn.Takes args task ∧
          fn.run invoke args = task.perform invoke) ∨
        (¬ fn.Accepts args ∧ ∃ i, FirstMisfit args fn.signature i ∧
          fn.run invoke args = Eval.raise (.badArgument fn.name i fn.signature[i]?)))) ∧
    ∀ a b s, foldl.Accepts [a, b, .text s] ↔ Fits [a, b] [.exactly .function, .any] := by
  refine ⟨check_eq_ok_iff, fit_iff, fun cause => ?_, ?_, ?_⟩
  · rw [check_eq_error_iff]
    constructor
    · rintro ⟨i, hi, rfl⟩
      exact ⟨i, hi, rfl, rfl, rfl⟩
    · rintro ⟨i, hi, hcause, -⟩
      exact ⟨i, hi, hcause⟩
  · intro fn ε κ _ invoke
    by_cases hargs : fn.Accepts args
    · obtain ⟨task, htask⟩ := exists_takes hargs
      refine ⟨fun d => ?_, .inl ⟨hargs, task, htask, htask.run_eq⟩⟩
      rw [htask.handle_eq d, htask.run_eq]
    · obtain ⟨i, hi⟩ := exists_firstMisfit (mt accepts_of_fits hargs)
      refine ⟨fun d => ?_, .inr ⟨hargs, i, hi, run_of_misfit hargs hi⟩⟩
      rw [handle_of_misfit hargs hi d, run_of_misfit hargs hi]
  · intro a b s
    simp [Accepts, signature, foldText]

/-- The square root of a text is a complaint, and not the not-a-number that stands there. -/
example : Native.sqrt.handle (.usual Cause Closure) (Function.invoke .empty 1) [.text "4"] =
    Eval.raise (.badArgument "sqrt" 0 (some (.exactly .number))) := rfl

end Native

end Clausal
