import Clausal.Proofs.Course
import Clausal.Proofs.Globals
import Clausal.Proofs.Table

/-!
# The table over a whole session

Whatever is done to a session, and however it ends, the table of functions changes in one way only:
groups of declarations that have been read take effect, one after the other
(`Environment.Commits`). From this follows what holds of the table at any time
(`Environment.Sound`): no two functions have the same name, every declared one has a clause, and
every function that a clause refers to is there. And it follows how the table of one time is
related to that of a later one (`Environment.Extends`): each function is still in its slot, with
the clauses it had in front.
-/

namespace Clausal

namespace Environment

variable {env env' env'' : Environment}

/-! ## Tables that grow -/

/-- Each function is in the slot where it was, with the clauses it had in front of any others. -/
def Extends (env env' : Environment) : Prop :=
  ∀ (slot : Nat) (d : Definition), env.definitions[slot]? = some d →
    ∃ more, env'.definitions[slot]? = some (d.append more)

theorem Extends.refl (env : Environment) : env.Extends env :=
  fun _ d hd => ⟨[], by rw [d.append_nil]; exact hd⟩

theorem Extends.trans (h : env.Extends env') (h' : env'.Extends env'') : env.Extends env'' := by
  intro slot d hd
  obtain ⟨more, hmore⟩ := h slot d hd
  obtain ⟨rest, hrest⟩ := h' slot _ hmore
  exact ⟨more ++ rest, by rw [← d.append_append]; exact hrest⟩

theorem Extends.mem_names (h : env.Extends env') {n : String} (hn : n ∈ env.names) :
    n ∈ env'.names := by
  obtain ⟨d, hd, rfl⟩ := List.mem_map.mp hn
  obtain ⟨slot, hslot⟩ := List.getElem?_of_mem hd
  obtain ⟨more, hmore⟩ := h slot d hslot
  rw [← d.name_append more]
  exact List.mem_map_of_mem (List.mem_of_getElem? hmore)

/-- Built-in functions take no clauses, so they stay what they are. -/
theorem Extends.prefix_of_native (h : env.Extends env')
    (hnative : ∀ d ∈ env.definitions, d.isNative = true) :
    env.definitions <+: env'.definitions := by
  rw [List.prefix_iff_getElem?]
  intro slot hslot
  obtain ⟨more, hmore⟩ := h slot _ (List.getElem?_eq_getElem hslot)
  rw [hmore]
  have hd := hnative _ (List.getElem_mem hslot)
  generalize env.definitions[slot] = d at hd ⊢
  cases d with
  | native fn => rfl
  | declared n cs => cases hd

theorem extends_commit (env : Environment) (group : List Declaration) :
    env.Extends (env.commit group) := by
  intro slot d hd
  obtain ⟨fresh, -, -, htable⟩ := env.exists_declareAll group
  obtain ⟨hlt, -⟩ := List.getElem?_eq_some_iff.mp hd
  refine ⟨(env.commit group).given group slot, ?_⟩
  rw [commit_definitions, List.getElem?_mapIdx, htable, List.getElem?_append_left hlt, hd]
  rfl

/-! ## Sound tables -/

/-- The functions have different names, the declared ones have clauses, and what a clause refers to
is there. -/
structure Sound (env : Environment) : Prop where
  distinct : env.names.Nodup
  nonempty : ∀ n cs, .declared n cs ∈ env.definitions → cs ≠ []
  known : ∀ n cs, .declared n cs ∈ env.definitions →
    ∀ c ∈ cs, ∀ g ∈ c.globals, env.contains g = true

theorem sound_empty : Sound {} :=
  ⟨List.nodup_nil, (fun _ _ h => nomatch h), fun _ _ h => nomatch h⟩

theorem sound_natives : Sound empty.withNatives := by
  have hnone (n : String) (cs : List Clause) :
      .declared n cs ∉ (empty.withNatives).definitions := by
    intro h
    obtain ⟨fn, -, hfn⟩ := List.mem_map.mp h
    cases hfn
  exact ⟨by decide, fun n cs h => absurd h (hnone n cs), fun n cs h => absurd h (hnone n cs)⟩

/-- The slot of the name of a function is that of the function if no other has its name. -/
theorem slotOf_name (h : env.names.Nodup) {slot : Nat} {d : Definition}
    (hd : env.definitions[slot]? = some d) : env.slotOf d.name = slot := by
  have hname : env.names[slot]? = some d.name := by rw [names, List.getElem?_map, hd]; rfl
  have hcontains : env.contains d.name = true :=
    contains_iff_mem.mpr (List.mem_of_getElem? hname)
  obtain ⟨e, he⟩ : ∃ e, env.definitions[env.slotOf d.name]? = some e :=
    ⟨_, List.getElem?_eq_getElem (contains_iff_slotOf.mp hcontains)⟩
  have hname' : env.names[env.slotOf d.name]? = some d.name := by
    rw [names, List.getElem?_map, he, Option.map_some, name_of_slotOf he]
  obtain ⟨hlt, -⟩ := List.getElem?_eq_some_iff.mp hname'
  exact (List.getElem?_inj hlt h).mp (hname'.trans hname.symm)

/-- A declared function after a group is one from before, or a new one, and the clauses that the
group gives to it are behind those it had. -/
theorem exists_of_mem_commit {group : List Declaration} {n : String} {cs : List Clause}
    (h : .declared n cs ∈ (env.commit group).definitions) :
    ∃ slot old, (env.commit group).definitions[slot]? = some (.declared n cs) ∧
      cs = old ++ (env.commit group).given group slot ∧
      (.declared n old ∈ env.definitions ∨ old = [] ∧ n ∈ group.map (·.name)) := by
  obtain ⟨slot, hslot⟩ := List.getElem?_of_mem h
  obtain ⟨fresh, -, hfresh, htable⟩ := env.exists_declareAll group
  have hentry := hslot
  rw [commit_definitions, List.getElem?_mapIdx, Option.map_eq_some_iff] at hentry
  obtain ⟨d, hd, happend⟩ := hentry
  have hmem := List.mem_of_getElem? hd
  rw [htable, List.mem_append] at hmem
  cases d with
  | native fn => cases happend
  | declared m old =>
    cases happend
    refine ⟨slot, old, hslot, rfl, hmem.imp_right fun hnew => ?_⟩
    obtain ⟨m, hm, hmn⟩ := List.mem_map.mp hnew
    cases hmn
    exact ⟨rfl, (hfresh _ hm).2⟩

theorem nodup_commit (h : env.names.Nodup) (group : List Declaration) :
    (env.commit group).names.Nodup := by
  obtain ⟨fresh, hnodup, hfresh, htable⟩ := env.exists_declareAll group
  have hnames : (env.declareAll group).names = env.names ++ fresh := by
    rw [names, htable, List.map_append, List.map_map]
    simp [names, Function.comp_def, Definition.name]
  rw [names_commit, hnames]
  exact List.nodup_append.mpr ⟨h, hnodup, fun a ha b hb heq => (hfresh b hb).1 (heq ▸ ha)⟩

/-- A group of trees that refer to no function yet leaves a sound table sound. -/
theorem Sound.commit (h : env.Sound) {group : List Declaration}
    (hgroup : ∀ d ∈ group, d.clause.globals = []) : (env.commit group).Sound := by
  have hdistinct := nodup_commit h.distinct group
  refine ⟨hdistinct, fun n cs hmem => ?_, fun n cs hmem c hc g hg => ?_⟩
  · obtain ⟨slot, old, hslot, rfl, hold | ⟨-, hnew⟩⟩ := exists_of_mem_commit hmem
    · exact fun hnil => h.nonempty n old hold (List.append_eq_nil_iff.mp hnil).1
    · -- a new function got at least the clause that made it known
      obtain ⟨d, hd, rfl⟩ := List.mem_map.mp hnew
      have hgiven : d ∈ group.filter fun e => (env.commit group).slotOf e.name == slot := by
        refine List.mem_filter.mpr ⟨hd, beq_iff_eq.mpr ?_⟩
        exact slotOf_name hdistinct hslot
      have hclause := List.mem_map_of_mem (f := fun e : Declaration =>
        e.clause.resolve (env.commit group).contains []) hgiven
      exact List.ne_nil_of_mem (List.mem_append_right old hclause)
  · obtain ⟨slot, old, -, rfl, hold⟩ := exists_of_mem_commit hmem
    rcases List.mem_append.mp hc with hc | hc
    · rcases hold with hold | ⟨rfl, -⟩
      · have hcontains := h.known n old hold c hc g hg
        rw [contains_iff_mem] at hcontains ⊢
        exact (env.extends_commit group).mem_names hcontains
      · cases hc
    · obtain ⟨d, hd, rfl⟩ := List.mem_map.mp hc
      have hclause := hgroup d (List.mem_filter.mp hd).1
      rcases Clause.globals_resolve d.clause hg with hknown | hmem
      · exact hknown
      · rw [hclause] at hmem
        cases hmem

/-- The table `env'` comes from `env` by groups that were read and took effect. -/
inductive Commits (env : Environment) : Environment → Prop
  | refl : Commits env env
  | commit {env' : Environment} {group : List Declaration} (h : Commits env env')
    (hgroup : ∀ d ∈ group, d.clause.globals = []) : Commits env (env'.commit group)

theorem Commits.trans (h : env.Commits env') (h' : env'.Commits env'') : env.Commits env'' := by
  induction h' with
  | refl => exact h
  | commit _ hgroup ih => exact ih.commit hgroup

theorem Commits.sound (h : env.Commits env') (henv : env.Sound) : env'.Sound := by
  induction h with
  | refl => exact henv
  | commit _ hgroup ih => exact ih.commit hgroup

theorem Commits.extends (h : env.Commits env') : env.Extends env' := by
  induction h with
  | refl => exact .refl env
  | commit _ _ ih => exact ih.trans (extends_commit _ _)

end Environment

theorem Clause.Written.globals {c : Clause} (h : c.Written) : c.globals = [] := by
  obtain ⟨q, rfl⟩ := h
  exact q.globals_clause

namespace Session

/-- All that happens to the table is that groups that were read take effect. -/
theorem tracks_commits : Tracks fun s t => s.env.Commits t.env where
  refl _ := .refl
  trans := .trans
  remember _ _ _ := .refl
  mark _ _ := .refl
  store _ _ := .refl
  latch _ _ := .refl
  commit s lexer group stop hlexer hread := by
    obtain ⟨-, hwritten⟩ := Parse.statement_finds s.env.isNative lexer _ stop hlexer hread
    exact .commit .refl fun d hd => (hwritten group rfl d hd).2.globals

theorem Leads.commits {s t : Session} (h : s.Leads t) : s.env.Commits t.env :=
  h.tracks tracks_commits

end Session

theorem Environment.eval_global {env : Environment} {name : String} {f : Function}
    (h : env.find? name = some f) (invoke : Invoke Cause Closure) (frame : Nat)
    (store : Store Closure) :
    (Expr.symbol name .global).eval env invoke frame store = .ok (.function f) store := by
  rw [Expr.eval, h]
  rfl

/-- The table of functions over whole sessions. At any time it is sound, and the built-in functions
of the start are in their places. At any later time every function is still in its slot, with the
clauses it had in front, and what a clause refers to as a function of the program evaluates to the
function of this name. -/
theorem Session.table_sound_and_growing {start s t : Session}
    (hstart : start = .new ∨ start = .bare) (hs : start.Leads s) (ht : s.Leads t) :
    s.env.Sound ∧ (start = .new → Native.all.map .native <+: s.env.definitions) ∧
      s.env.Extends t.env ∧
      ∀ n cs, .declared n cs ∈ s.env.definitions → ∀ c ∈ cs, ∀ g ∈ c.globals, ∃ f,
        t.env.find? g = some f ∧ ∀ invoke frame store,
          (Expr.symbol g .global).eval t.env invoke frame store = .ok (.function f) store := by
  have hsound : s.env.Sound := by
    refine hs.commits.sound ?_
    rcases hstart with rfl | rfl
    · exact Environment.sound_natives
    · exact Environment.sound_empty
  refine ⟨hsound, ?_, ht.commits.extends, fun n cs hmem c hc g hg => ?_⟩
  · rintro rfl
    refine hs.commits.extends.prefix_of_native fun d hd => ?_
    obtain ⟨fn, -, rfl⟩ := List.mem_map.mp hd
    rfl
  · have hknown := hsound.known n cs hmem c hc g hg
    rw [Environment.contains_iff_mem] at hknown
    have hlater := Environment.contains_iff_mem.mpr (ht.commits.extends.mem_names hknown)
    obtain ⟨f, hf⟩ := Option.isSome_iff_exists.mp hlater
    exact ⟨f, hf, Environment.eval_global hf⟩

/-- Two functions that refer to each other, and a clause that is added to the first of them later,
after a text that failed. -/
theorem Session.table_sound_and_growing_pair :
    ∃ r s t, (loadText (.ofFiles "/" []) "let f(x) = g let g(x) = f" .new).state? = some r ∧
      (loadText (.ofFiles "/" []) "let h(x) = 1 let f(" r).state? = some s ∧
      (loadText (.ofFiles "/" []) "let f(x, y) = h" s).state? = some t ∧
      r.env.Sound ∧ t.env.Sound ∧ r.env.Extends t.env ∧ t.env.contains "h" = false ∧
      ∃ f, t.env.find? "g" = some f := by
  have hrun : (loadText (.ofFiles "/" []) "let f(x) = g let g(x) = f" .new).state?.any
      (fun r => (loadText (.ofFiles "/" []) "let h(x) = 1 let f(" r).state?.any fun s =>
        (loadText (.ofFiles "/" []) "let f(x, y) = h" s).state?.any fun t =>
          !t.env.contains "h" && r.env.definitions.any fun d =>
            (d.clauses?.getD []).any (·.globals.contains "g")) = true := by decide +kernel
  obtain ⟨r, hr, hrest⟩ := (Option.any_eq_true _ _).mp hrun
  obtain ⟨s, hs, hrest⟩ := (Option.any_eq_true _ _).mp hrest
  obtain ⟨t, ht, hrest⟩ := (Option.any_eq_true _ _).mp hrest
  obtain ⟨hforgotten, hrefers⟩ := (Bool.and_eq_true _ _).mp hrest
  have hlater : r.Leads t := .step (.step .refl (.loadText hs)) (.loadText ht)
  obtain ⟨hsound, -, hextends, hevaluates⟩ :=
    table_sound_and_growing (.inl rfl) (.step .refl (.loadText hr)) hlater
  obtain ⟨d, hd, hclauses⟩ := List.any_eq_true.mp hrefers
  cases d with
  | native fn => cases hclauses
  | declared n cs =>
    obtain ⟨c, hc, hg⟩ := List.any_eq_true.mp hclauses
    obtain ⟨f, hf, -⟩ := hevaluates n cs hd c hc "g" (by simpa using hg)
    refine ⟨r, s, t, hr, hs, ht, hsound, ?_, hextends, by simpa using hforgotten, f, hf⟩
    exact hlater.commits.sound hsound

end Clausal
