import Clausal.Environment

/-!
# The table of functions

What a group of declarations does to the table, as one equation: the names it mentions first get
functions at the end, in the order in which they are mentioned, and every function of the table
then has those of the group's clauses at its end that are declared under its name, in their order
(`Environment.grows_commit`). The functions that were there keep their slots, their names and the
clauses they had. Seen from a name, groups that take effect one after the other put the clauses they
give under the name behind those it had (`Environment.clausesOf_foldl_commit`).

A function is told by its slot. The slot of a name (`Environment.slotOf`) depends on the names in
the table only, which adding clauses does not change.
-/

namespace Clausal

/-! ## Entries -/

namespace Definition

/-- Put clauses at the end of a declared function. A built-in one takes none. -/
def append (cs : List Clause) : Definition → Definition
  | .native fn => .native fn
  | .declared n old => .declared n (old ++ cs)

variable (d : Definition) (cs : List Clause)

@[simp]
theorem name_append : (d.append cs).name = d.name := by
  cases d <;> rfl

@[simp]
theorem isNative_append : (d.append cs).isNative = d.isNative := by
  cases d <;> rfl

@[simp]
theorem append_nil : d.append [] = d := by
  cases d with
  | native fn => rfl
  | declared n old => simp [append]

@[simp]
theorem append_append (more : List Clause) : (d.append cs).append more = d.append (cs ++ more) := by
  cases d with
  | native fn => rfl
  | declared n old => simp [append]

theorem isNative_function (slot : Nat) : (d.function slot).isNative = d.isNative := by
  cases d <;> rfl

end Definition

namespace Environment

/-! ## Slots -/

/-- The names of all functions, in order. -/
def names (env : Environment) : List String := env.definitions.map (·.name)

/-- The slot of the first function of a name. If there is none, it is the first slot that is not
taken. -/
def slotOf (env : Environment) (name : String) : Nat := env.definitions.findIdx (·.name == name)

variable {env env' : Environment} {name : String}

theorem slotOf_eq_names (env : Environment) (name : String) :
    env.slotOf name = env.names.findIdx (· == name) := by
  rw [names, List.findIdx_map]
  rfl

theorem find?_eq (env : Environment) (name : String) :
    env.find? name = env.definitions[env.slotOf name]?.map (·.function (env.slotOf name)) := by
  have hfrom (ds : List Definition) (start : Nat) :
      findFrom name start ds = ds[ds.findIdx (·.name == name)]?.map
        (·.function (start + ds.findIdx (·.name == name))) := by
    induction ds generalizing start with
    | nil => rfl
    | cons d ds ih =>
      rw [findFrom, List.findIdx_cons]
      by_cases hd : d.name = name
      · simp [hd]
      · have hne : (d.name == name) = false := by simpa using hd
        rw [if_neg hd, ih, hne, cond_false, List.getElem?_cons_succ]
        congr 2
        funext x
        rw [Nat.add_assoc, Nat.add_comm 1]
  have h := hfrom env.definitions 0
  rwa [Nat.zero_add] at h

theorem contains_iff_slotOf :
    env.contains name = true ↔ env.slotOf name < env.definitions.length := by
  rw [contains, find?_eq]
  simp

theorem contains_iff_mem : env.contains name = true ↔ name ∈ env.names := by
  have hlength : env.definitions.length = env.names.length := (List.length_map _).symm
  rw [contains_iff_slotOf, slotOf_eq_names, hlength, List.findIdx_lt_length]
  simp

theorem isNative_eq (env : Environment) (name : String) :
    env.isNative name = env.definitions[env.slotOf name]?.any (·.isNative) := by
  rw [isNative, find?_eq, Option.any_map]
  congr 1
  funext d
  exact d.isNative_function _

/-- The function in the slot of a name has this name. -/
theorem name_of_slotOf {d : Definition} (h : env.definitions[env.slotOf name]? = some d) :
    d.name = name := by
  obtain ⟨hlt, rfl⟩ := List.getElem?_eq_some_iff.mp h
  have hfound : (env.definitions[env.slotOf name].name == name) = true :=
    List.findIdx_getElem (w := hlt)
  simpa using hfound

/-! ## Making names known -/

theorem declare_of_contains (h : env.contains name = true) : env.declare name = env := by
  rw [declare, if_pos h]

theorem declare_of_not_contains (h : env.contains name = false) :
    (env.declare name).definitions = env.definitions ++ [.declared name []] := by
  rw [declare, h]
  rfl

/-- A new function stands behind all others. -/
theorem slotOf_declare (h : env.contains name = false) :
    (env.declare name).slotOf name = env.definitions.length := by
  have hslot : ¬ env.slotOf name < env.definitions.length := by
    rw [← contains_iff_slotOf, h]
    exact Bool.false_ne_true
  rw [slotOf, declare_of_not_contains h, List.findIdx_append]
  refine (if_neg hslot).trans ?_
  simp [Definition.name]

/-- Make all names of a group known. -/
def declareAll (env : Environment) (group : List Declaration) : Environment :=
  group.foldl (fun env d => env.declare d.name) env

theorem declareAll_cons (env : Environment) (d : Declaration) (group : List Declaration) :
    env.declareAll (d :: group) = (env.declare d.name).declareAll group := rfl

theorem mem_names_declare {n : String} :
    n ∈ (env.declare name).names ↔ n ∈ env.names ∨ n = name := by
  cases h : env.contains name with
  | true =>
    rw [declare_of_contains h]
    rw [contains_iff_mem] at h
    constructor
    · exact .inl
    · rintro (hn | rfl)
      · exact hn
      · exact h
  | false =>
    rw [names, declare_of_not_contains h, List.map_append]
    simp [names, Definition.name]

theorem mem_names_declareAll {n : String} (env : Environment) (group : List Declaration) :
    n ∈ (env.declareAll group).names ↔ n ∈ env.names ∨ n ∈ group.map (·.name) := by
  induction group generalizing env with
  | nil => simp [declareAll]
  | cons d group ih =>
    rw [declareAll_cons, ih, mem_names_declare, List.map_cons, List.mem_cons, or_assoc]

theorem contains_declareAll {group : List Declaration} {d : Declaration} (hd : d ∈ group) :
    (env.declareAll group).contains d.name = true :=
  contains_iff_mem.mpr ((env.mem_names_declareAll group).mpr (.inr (List.mem_map_of_mem hd)))

/-- The names that a group mentions first, in the order in which it does. -/
theorem exists_declareAll (env : Environment) (group : List Declaration) :
    ∃ fresh : List String, fresh.Nodup ∧
      (∀ n ∈ fresh, n ∉ env.names ∧ n ∈ group.map (·.name)) ∧
      (env.declareAll group).definitions = env.definitions ++ fresh.map (.declared · []) := by
  induction group generalizing env with
  | nil => exact ⟨[], List.nodup_nil, List.forall_mem_nil _, (List.append_nil _).symm⟩
  | cons d group ih =>
    obtain ⟨fresh, hnodup, hfresh, htable⟩ := ih (env.declare d.name)
    have hmem : ∀ n ∈ fresh, n ∈ (d :: group).map (·.name) := fun n hn => .tail _ (hfresh n hn).2
    rw [declareAll_cons]
    cases h : env.contains d.name with
    | true =>
      rw [declare_of_contains h] at hfresh htable ⊢
      exact ⟨fresh, hnodup, fun n hn => ⟨(hfresh n hn).1, hmem n hn⟩, htable⟩
    | false =>
      have hnew : ∀ n ∈ fresh, n ∉ env.names ∧ n ≠ d.name := fun n hn =>
        not_or.mp fun h => (hfresh n hn).1 (mem_names_declare.mpr h)
      have hd : d.name ∉ env.names := by
        rw [← contains_iff_mem, h]
        exact Bool.false_ne_true
      refine ⟨d.name :: fresh, List.nodup_cons.mpr ⟨?_, hnodup⟩, ?_, ?_⟩
      · exact fun hd => (hnew d.name hd).2 rfl
      · exact List.forall_mem_cons.mpr ⟨⟨hd, .head _⟩, fun n hn => ⟨(hnew n hn).1, hmem n hn⟩⟩
      · rw [htable, declare_of_not_contains h, List.append_assoc]
        rfl

/-! ## Adding clauses -/

/-- The clauses of a group for the function in a slot, as the names of the table resolve them. -/
def given (env : Environment) (group : List Declaration) (slot : Nat) : List Clause :=
  (group.filter fun d => env.slotOf d.name == slot).map (·.clause.resolve env.contains [])

theorem addClause_definitions (env : Environment) (name : String) (c : Clause) :
    (env.addClause name c).definitions =
      env.definitions.modify (env.slotOf name) (Definition.append [c]) := by
  have hin (ds : List Definition) :
      addClauseIn name c ds = ds.modify (ds.findIdx (·.name == name)) (Definition.append [c]) := by
    induction ds with
    | nil => rfl
    | cons d ds ih =>
      rw [addClauseIn.eq_def, List.findIdx_cons, List.modify_cons]
      by_cases hd : d.name = name
      · cases d <;> simp_all [Definition.append]
      · have hne : (d.name == name) = false := by simpa using hd
        simp [hd, hne, ih]
  exact hin env.definitions

@[simp]
theorem names_addClause (env : Environment) (name : String) (c : Clause) :
    (env.addClause name c).names = env.names := by
  apply List.ext_getElem?
  intro i
  simp only [names, addClause_definitions, List.getElem?_map, List.getElem?_modify]
  cases env.definitions[i]? with
  | none => rfl
  | some d => by_cases h : env.slotOf name = i <;> simp [h]

theorem slotOf_congr (h : env'.names = env.names) : env'.slotOf = env.slotOf := by
  funext name
  rw [slotOf_eq_names, slotOf_eq_names, h]

theorem contains_congr (h : env'.names = env.names) : env'.contains = env.contains := by
  funext name
  rw [Bool.eq_iff_iff, contains_iff_mem, contains_iff_mem, h]

/-- Clauses added one after the other stand in their order in the slots of their names. -/
theorem foldl_addClause (group : List Declaration) (clause : Declaration → Clause)
    (env : Environment) :
    (group.foldl (fun env d => env.addClause d.name (clause d)) env).definitions =
      env.definitions.mapIdx fun slot d =>
        d.append ((group.filter fun e => env.slotOf e.name == slot).map clause) := by
  induction group generalizing env with
  | nil =>
    apply List.ext_getElem?
    simp
  | cons e group ih =>
    rw [List.foldl_cons, ih, slotOf_congr (names_addClause env e.name _)]
    apply List.ext_getElem?
    intro slot
    rw [List.getElem?_mapIdx, List.getElem?_mapIdx, addClause_definitions, List.getElem?_modify]
    cases env.definitions[slot]? with
    | none => rfl
    | some d => by_cases h : env.slotOf e.name = slot <;> simp [h]

theorem names_foldl_addClause (group : List Declaration) (clause : Declaration → Clause)
    (env : Environment) :
    (group.foldl (fun env d => env.addClause d.name (clause d)) env).names = env.names := by
  induction group generalizing env with
  | nil => rfl
  | cons e group ih => rw [List.foldl_cons, ih, names_addClause]

theorem names_commit (env : Environment) (group : List Declaration) :
    (env.commit group).names = (env.declareAll group).names :=
  names_foldl_addClause group _ _

/-- What a group of declarations does to the table. -/
theorem commit_definitions (env : Environment) (group : List Declaration) :
    (env.commit group).definitions = (env.declareAll group).definitions.mapIdx fun slot d =>
      d.append ((env.commit group).given group slot) := by
  have hnames := env.names_commit group
  simp only [given, slotOf_congr hnames, contains_congr hnames]
  exact foldl_addClause group _ _

/-! ## Built-in functions -/

theorem slotOf_append {ds : List Definition} (h : env'.definitions = env.definitions ++ ds)
    (hname : env.contains name = true) : env'.slotOf name = env.slotOf name := by
  rw [contains_iff_slotOf] at hname
  rw [slotOf, h, List.findIdx_append]
  exact if_pos hname

/-- Declared functions behind the others do not change which names are built-in. -/
theorem isNative_append {ds : List Definition} (h : env'.definitions = env.definitions ++ ds)
    (hds : ∀ d ∈ ds, d.isNative = false) : env'.isNative = env.isNative := by
  funext name
  rw [isNative_eq, isNative_eq]
  cases hname : env.contains name with
  | true =>
    rw [slotOf_append h hname, h, List.getElem?_append_left (contains_iff_slotOf.mp hname)]
  | false =>
    have hlength : env.definitions.length ≤ env.slotOf name := by
      rw [← Nat.not_lt, ← contains_iff_slotOf, hname]
      exact Bool.false_ne_true
    rw [List.getElem?_eq_none hlength, Option.any_none, Option.any_eq_false]
    intro d hd
    have hmem : d ∈ env.definitions ++ ds := h ▸ List.mem_of_getElem? hd
    rcases List.mem_append.mp hmem with hold | hnew
    · have hcontains : env.contains name = true :=
        contains_iff_mem.mpr (name_of_slotOf hd ▸ List.mem_map_of_mem hold)
      rw [hname] at hcontains
      cases hcontains
    · simp [hds d hnew]

theorem isNative_declare (env : Environment) (name : String) :
    (env.declare name).isNative = env.isNative := by
  cases h : env.contains name with
  | true => rw [declare_of_contains h]
  | false => exact isNative_append (declare_of_not_contains h) (by simp [Definition.isNative])

theorem isNative_declareAll (env : Environment) (group : List Declaration) :
    (env.declareAll group).isNative = env.isNative := by
  induction group generalizing env with
  | nil => rfl
  | cons d group ih => rw [declareAll_cons, ih, isNative_declare]

theorem isNative_addClause (env : Environment) (name : String) (c : Clause) :
    (env.addClause name c).isNative = env.isNative := by
  funext n
  rw [isNative_eq, isNative_eq, slotOf_congr (names_addClause env name c), addClause_definitions,
    List.getElem?_modify]
  cases env.definitions[env.slotOf n]? with
  | none => rfl
  | some d => by_cases h : env.slotOf name = env.slotOf n <;> simp [h]

theorem isNative_foldl_addClause (group : List Declaration) (clause : Declaration → Clause)
    (env : Environment) :
    (group.foldl (fun env d => env.addClause d.name (clause d)) env).isNative = env.isNative := by
  induction group generalizing env with
  | nil => rfl
  | cons e group ih => rw [List.foldl_cons, ih, isNative_addClause]

theorem isNative_commit (env : Environment) (group : List Declaration) :
    (env.commit group).isNative = env.isNative :=
  (isNative_foldl_addClause group _ _).trans (env.isNative_declareAll group)

/-- A name that is known and not built in is that of a declared function. -/
theorem exists_declared (hname : env.contains name = true) (hnative : env.isNative name = false) :
    ∃ cs, env.definitions[env.slotOf name]? = some (.declared name cs) := by
  obtain ⟨d, hd⟩ : ∃ d, env.definitions[env.slotOf name]? = some d :=
    ⟨_, List.getElem?_eq_getElem (contains_iff_slotOf.mp hname)⟩
  obtain rfl := name_of_slotOf hd
  rw [isNative_eq, hd] at hnative
  cases d with
  | native fn => cases hnative
  | declared n cs => exact ⟨cs, hd⟩

/-! ## Counting clauses -/

/-- The clauses of all functions, in order. -/
def clauses (env : Environment) : List Clause := env.definitions.flatMap (·.clauses?.getD [])

theorem length_clauses_addClause (c : Clause) (hname : env.contains name = true)
    (hnative : env.isNative name = false) :
    (env.addClause name c).clauses.length = env.clauses.length + 1 := by
  have hmodify (ds : List Definition) (slot : Nat) (n : String) (cs : List Clause)
      (h : ds[slot]? = some (.declared n cs)) :
      ((ds.modify slot (Definition.append [c])).flatMap (·.clauses?.getD [])).length =
        (ds.flatMap (·.clauses?.getD [])).length + 1 := by
    induction ds generalizing slot with
    | nil => cases h
    | cons d ds ih =>
      cases slot with
      | zero =>
        cases h
        simp only [List.modify_zero_cons, List.flatMap_cons, List.length_append,
          Definition.append, Definition.clauses?, Option.getD_some, List.length_singleton]
        omega
      | succ slot =>
        simp only [List.modify_succ_cons, List.flatMap_cons, List.length_append, ih slot h]
        omega
  rw [clauses, addClause_definitions]
  obtain ⟨cs, hcs⟩ := exists_declared hname hnative
  exact hmodify env.definitions (env.slotOf name) name cs hcs

theorem length_clauses_foldl_addClause {group : List Declaration} (clause : Declaration → Clause)
    (hgroup : ∀ d ∈ group, env.contains d.name = true ∧ env.isNative d.name = false) :
    (group.foldl (fun env d => env.addClause d.name (clause d)) env).clauses.length =
      env.clauses.length + group.length := by
  induction group generalizing env with
  | nil => rfl
  | cons e group ih =>
    obtain ⟨he, hgroup⟩ := List.forall_mem_cons.mp hgroup
    rw [List.foldl_cons, ih, length_clauses_addClause _ he.1 he.2, List.length_cons]
    · omega
    · rwa [isNative_addClause, contains_congr (names_addClause env e.name _)]

/-! ## The whole group -/

/-- A table has grown by a group of declarations. -/
structure Grows (env : Environment) (group : List Declaration) (env' : Environment) : Prop where
  /-- The functions that were there keep their places, and new ones come behind them, one for each
  new name. At the end of each function stand the clauses that the group gives under its name. -/
  table : ∃ fresh : List String, fresh.Nodup ∧
    (∀ n ∈ fresh, n ∉ env.names ∧ n ∈ group.map (·.name)) ∧
    env'.definitions = (env.definitions ++ fresh.map (Definition.declared · [])).mapIdx
      fun slot d => d.append (env'.given group slot)
  /-- Every clause of the group is for a declared function. -/
  declared : ∀ d ∈ group,
    ∃ cs, env'.definitions[env'.slotOf d.name]? = some (.declared d.name cs)
  /-- No clause is lost, and none comes twice. -/
  count : env'.clauses.length = env.clauses.length + group.length

theorem grows_commit {group : List Declaration}
    (hgroup : ∀ d ∈ group, env.isNative d.name = false) : env.Grows group (env.commit group) := by
  obtain ⟨fresh, hnodup, hfresh, htable⟩ := env.exists_declareAll group
  refine ⟨⟨fresh, hnodup, hfresh, by rw [← htable]; exact env.commit_definitions group⟩, ?_, ?_⟩
  · intro d hd
    refine exists_declared ?_ (by rw [isNative_commit, hgroup d hd])
    rw [contains_congr (env.names_commit group), contains_declareAll hd]
  · have hempty : (env.declareAll group).clauses = env.clauses := by
      simp [clauses, htable, List.flatMap_map, Definition.clauses?]
    rw [← hempty]
    have hall : ∀ d ∈ group, (env.declareAll group).contains d.name = true ∧
        (env.declareAll group).isNative d.name = false := fun d hd =>
      ⟨contains_declareAll hd, by rw [isNative_declareAll, hgroup d hd]⟩
    exact length_clauses_foldl_addClause _ hall

/-! ## The clauses under a name -/

/-- The clauses of the function that a name stands for. -/
def clausesOf (env : Environment) (name : String) : List Clause := env.clausesAt (env.slotOf name)

theorem clausesOf_of_not_contains (h : env.contains name = false) : env.clausesOf name = [] := by
  have hslot : env.definitions.length ≤ env.slotOf name := by
    rw [← Nat.not_lt, ← contains_iff_slotOf, h]
    exact Bool.false_ne_true
  rw [clausesOf, clausesAt, List.getElem?_eq_none hslot]
  rfl

theorem slotOf_inj {n : String} (h : env.contains n = true) :
    env.slotOf n = env.slotOf name ↔ n = name := by
  constructor
  · intro hslot
    obtain ⟨d, hd⟩ : ∃ d, env.definitions[env.slotOf n]? = some d :=
      ⟨_, List.getElem?_eq_getElem (contains_iff_slotOf.mp h)⟩
    rw [← name_of_slotOf hd]
    rw [hslot] at hd
    exact name_of_slotOf hd
  · rintro rfl
    rfl

/-- A function that has just been made has no clauses. -/
theorem clausesOf_declare (env : Environment) (n : String) :
    (env.declare n).clausesOf name = env.clausesOf name := by
  cases h : env.contains n with
  | true => rw [declare_of_contains h]
  | false =>
    have htable := declare_of_not_contains h
    cases hname : env.contains name with
    | true =>
      rw [clausesOf, clausesAt, slotOf_append htable hname, htable,
        List.getElem?_append_left (contains_iff_slotOf.mp hname)]
      rfl
    | false =>
      rw [clausesOf_of_not_contains hname]
      by_cases hn : name = n
      · subst hn
        simp [clausesOf, clausesAt, slotOf_declare h, htable, Definition.clauses?]
      · refine clausesOf_of_not_contains (Bool.eq_false_iff.mpr fun hnew => ?_)
        rw [contains_iff_mem, mem_names_declare, ← contains_iff_mem, hname] at hnew
        simp [hn] at hnew

theorem clausesOf_declareAll (env : Environment) (group : List Declaration) :
    (env.declareAll group).clausesOf name = env.clausesOf name := by
  induction group generalizing env with
  | nil => rfl
  | cons d group ih => rw [declareAll_cons, ih, clausesOf_declare]

theorem clausesOf_addClause {n : String} (c : Clause) (hcontains : env.contains n = true)
    (hnative : env.isNative n = false) :
    (env.addClause n c).clausesOf name = env.clausesOf name ++ if n = name then [c] else [] := by
  obtain ⟨cs, hcs⟩ := exists_declared hcontains hnative
  simp only [clausesOf, clausesAt, slotOf_congr (names_addClause env n c), addClause_definitions,
    List.getElem?_modify, slotOf_inj hcontains]
  by_cases h : n = name
  · subst h
    simp [hcs, Definition.append, Definition.clauses?]
  · simp [h]

theorem clausesOf_foldl_addClause {group : List Declaration} (clause : Declaration → Clause)
    (hgroup : ∀ d ∈ group, env.contains d.name = true ∧ env.isNative d.name = false) :
    (group.foldl (fun env d => env.addClause d.name (clause d)) env).clausesOf name =
      env.clausesOf name ++ (group.filter (·.name == name)).map clause := by
  induction group generalizing env with
  | nil => simp
  | cons e group ih =>
    obtain ⟨he, hgroup⟩ := List.forall_mem_cons.mp hgroup
    rw [List.foldl_cons, ih, clausesOf_addClause _ he.1 he.2, List.append_assoc]
    · by_cases h : e.name = name <;> simp [h]
    · rwa [isNative_addClause, contains_congr (names_addClause env e.name _)]

theorem contains_commit (env : Environment) (group : List Declaration) :
    (env.commit group).contains = fun n => env.contains n || group.any (·.name == n) := by
  funext n
  rw [Bool.eq_iff_iff, contains_iff_mem, names_commit, mem_names_declareAll]
  simp [contains_iff_mem]

/-- The clauses that groups give under a name, one group after the other. Each clause is resolved by
the names known before and those of its own group. -/
def clausesGiven (name : String) (known : String → Bool) : List (List Declaration) → List Clause
  | [] => []
  | group :: rest =>
    let known := fun n => known n || group.any (·.name == n)
    (group.filter (·.name == name)).map (·.clause.resolve known []) ++ clausesGiven name known rest

theorem clausesOf_commit {group : List Declaration}
    (hgroup : ∀ d ∈ group, env.isNative d.name = false) :
    (env.commit group).clausesOf name = env.clausesOf name ++
      (group.filter (·.name == name)).map (·.clause.resolve (env.commit group).contains []) := by
  have hall : ∀ d ∈ group, (env.declareAll group).contains d.name = true ∧
      (env.declareAll group).isNative d.name = false := fun d hd =>
    ⟨contains_declareAll hd, by rw [isNative_declareAll, hgroup d hd]⟩
  rw [contains_congr (env.names_commit group), ← env.clausesOf_declareAll group]
  exact clausesOf_foldl_addClause _ hall

theorem clausesOf_foldl_commit {groups : List (List Declaration)}
    (hgroups : ∀ group ∈ groups, ∀ d ∈ group, env.isNative d.name = false) :
    (groups.foldl commit env).clausesOf name =
      env.clausesOf name ++ clausesGiven name env.contains groups := by
  induction groups generalizing env with
  | nil => simp [clausesGiven]
  | cons group rest ih =>
    obtain ⟨hgroup, hrest⟩ := List.forall_mem_cons.mp hgroups
    rw [List.foldl_cons, ih (by rwa [isNative_commit]), clausesOf_commit hgroup, List.append_assoc,
      clausesGiven, contains_commit]

end Environment

end Clausal
