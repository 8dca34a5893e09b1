import Clausal.Proofs.InOrder
import Clausal.Proofs.Pieces

/-!
# Additions to a program

Loading declarations of new names does not change what is there. A global reference is looked up by
its name when it is evaluated, in a table that has grown by then; but the names that a clause refers
to were known when the clause was resolved, and they still stand for the same functions
(`Environment.find?_commit`), which have got no clauses (`Environment.clausesAt_commit_of_new`).
A symbol that was unresolved stays so, whatever is declared later.

* `Script.Adds`: a text declares functions that are not in the table, and does nothing else.
* `Session.additions_leave_calls_alone`: the result.
-/

namespace Clausal

/-! ## The table -/

namespace Environment

variable {env : Environment} {group : List Declaration}

/-- A name goes on standing for the function it stands for. -/
theorem find?_commit {n : String} (h : env.contains n = true) (group : List Declaration) :
    (env.commit group).find? n = env.find? n := by
  have hslot : (env.commit group).slotOf n = env.slotOf n := by
    obtain ⟨fresh, -, -, htable⟩ := env.exists_declareAll group
    rw [slotOf_congr (env.names_commit group)]
    exact slotOf_append htable h
  obtain ⟨d, hd⟩ : ∃ d, env.definitions[env.slotOf n]? = some d :=
    ⟨_, List.getElem?_eq_getElem (contains_iff_slotOf.mp h)⟩
  obtain ⟨more, hmore⟩ := env.extends_commit group _ d hd
  rw [find?_eq, find?_eq, hslot, hd, hmore]
  cases d <;> rfl

/-- A new name gets a slot behind all others. -/
theorem length_le_slotOf_commit {n : String} (h : env.contains n = false)
    (group : List Declaration) : env.definitions.length ≤ (env.commit group).slotOf n := by
  have hold : ¬ env.slotOf n < env.definitions.length := by
    rw [← contains_iff_slotOf, h]
    exact Bool.false_ne_true
  obtain ⟨fresh, -, -, htable⟩ := env.exists_declareAll group
  rw [slotOf_congr (env.names_commit group), slotOf, htable, List.findIdx_append]
  split
  · next hlt => exact absurd hlt hold
  · omega

/-- A group that declares new names only leaves the clauses of all functions alone. -/
theorem clausesAt_commit_of_new (hnew : ∀ d ∈ group, env.contains d.name = false) {slot : Nat}
    (hslot : slot < env.definitions.length) :
    (env.commit group).clausesAt slot = env.clausesAt slot := by
  have hgiven : (env.commit group).given group slot = [] := by
    rw [given, List.map_eq_nil_iff, List.filter_eq_nil_iff]
    intro d hd heq
    have hle := length_le_slotOf_commit (hnew d hd) group
    rw [beq_iff_eq] at heq
    omega
  rw [clausesAt_commit, hgiven, ite_self, List.append_nil]

theorem mem_functions_of_find? {n : String} {f : Function} (h : env.find? n = some f) :
    f ∈ env.functions := by
  rw [find?_eq] at h
  obtain ⟨d, hd, rfl⟩ := Option.map_eq_some_iff.mp h
  exact List.mem_map.mpr ⟨(d, env.slotOf n), List.mem_zipIdx_iff_getElem?.mpr hd, rfl⟩

theorem there_of_mem {f : Function} (h : f ∈ env.functions) {n : Nat} : f.There env n := by
  obtain ⟨⟨d, slot⟩, hd, rfl⟩ := List.mem_map.mp h
  obtain ⟨hslot, -⟩ := List.getElem?_eq_some_iff.mp (List.mem_zipIdx_iff_getElem?.mp hd)
  cases d with
  | native fn => trivial
  | declared name cs => exact hslot

end Environment

/-! ## Texts -/

/-- Every statement is a group of declarations of names that are not in the table. -/
def Script.Adds (env : Environment) (script : Script) : Prop :=
  ∀ st ∈ script.statements, ∃ group, st = .declarations group ∧
    ∀ d ∈ group, env.contains d.name = false

theorem Script.Adds.only {env : Environment} {script : Script} (h : script.Adds env) :
    script.OnlyDeclares := by
  intro st hst
  obtain ⟨group, hgroup, -⟩ := h st hst
  exact ⟨group, hgroup⟩

theorem Declares.adds {env : Environment} {text : String} {group : List Declaration}
    (h : Declares env.isNative text group) (hnew : ∀ d ∈ group, env.contains d.name = false) :
    (Script.ofSource env.isNative text none).Adds env := by
  intro st hst
  rcases h.statements_eq with ⟨hnone, -⟩ | hone
  · rw [hnone] at hst
    cases hst
  · rw [hone] at hst
    exact ⟨group, List.mem_singleton.mp hst, hnew⟩

namespace Session

/-- A text that adds functions leaves the store alone, and the table as it is but for new names. -/
theorem exists_added {fs : FileSystem} {source : String} {s t : Session}
    (hadds : (Script.ofSource s.env.isNative source none).Adds s.env)
    (hload : loadText fs source s = .ok () t) :
    ∃ group, (∀ d ∈ group, s.env.contains d.name = false) ∧ t.env = s.env.commit group ∧
      t.store = s.store := by
  obtain ⟨group, hdeclares, henv, hstore⟩ := exists_declares hadds.only hload
  refine ⟨group, ?_, henv, hstore⟩
  rcases hdeclares.statements_eq with ⟨-, rfl⟩ | hstatements
  · exact List.forall_mem_nil _
  · obtain ⟨group', hgroup, hnew⟩ := hadds (.declarations group) (by simp [hstatements])
    cases hgroup
    exact hnew

/-- Adding new functions does not change old code. If a text is loaded that declares only names that
are not in the table yet, then a call of a function that was there, with any arguments that the
session knew, ends as it did before: in the same value or in the same error, with the same printed
text and the same store. -/
theorem additions_leave_calls_alone {fs : FileSystem} {source : String} {s t : Session}
    (hs : s.Built False) (hadds : (Script.ofSource s.env.isNative source none).Adds s.env)
    (hload : loadText fs source s = .ok () t) {f : Function} (hf : f ∈ s.env.functions)
    {args : List Value} (hargs : ∀ v ∈ args, s.Knows v) (depth : Nat) :
    Function.invoke t.env depth f args t.store = Function.invoke s.env depth f args s.store := by
  obtain ⟨group, hnew, henv, hstore⟩ := exists_added hadds hload
  have horder := hs.inOrder False.elim
  have hstable : (s.setting False t.env).Stable := by
    rw [henv]
    exact horder.stable False.elim (fun n hn => Environment.find?_commit hn group)
      fun slot hslot => Environment.clausesAt_commit_of_new hnew hslot
  have horderly : (s.setting False t.env).Orderly [] s.store :=
    horder.orderly.grow (Nat.le_refl _) (fun _ hn => hn) id
  have hthere : f.There s.env s.store.closures.size := Environment.there_of_mem hf
  rw [hstore]
  exact (hstable.invoke_stays depth f args [] s.store horderly hthere hargs).1

/-- The symbol that was found to be unresolved. -/
def unresolvedSymbol? : Cause → Option String
  | .unresolved name => some name
  | _ => none

theorem unresolvedSymbol?_eq_some {c : Cause} {name : String} :
    unresolvedSymbol? c = some name ↔ c = .unresolved name := by
  cases c <;> simp [unresolvedSymbol?]

/-- A function that calls what is declared only later goes on failing, also with a lambda that was
made before. -/
theorem additions_leave_calls_alone_unresolved :
    ∃ r s t v f, loadText (.ofFiles "/" []) "let f(x) = g(x)" .new = .ok () r ∧
      evalText "@(y) = y" r = .ok v s ∧
      loadText (.ofFiles "/" []) "let g(x) = x" s = .ok () t ∧
      s.env.find? "f" = some f ∧ t.env.contains "g" = true ∧
      (∃ u, Function.invoke s.env 5 f [v] s.store = .fail (.unresolved "g") u) ∧
      ∀ depth, Function.invoke t.env depth f [v] t.store =
        Function.invoke s.env depth f [v] s.store := by
  have hrun : ((loadText (.ofFiles "/" []) "let f(x) = g(x)" .new).passes fun _ r =>
      (evalText "@(y) = y" r).passes fun v s =>
        (loadText (.ofFiles "/" []) "let g(x) = x" s).passes fun _ t =>
          t.env.contains "g" &&
          (declarations? s.env.isNative "let g(x) = x").any (·.all (!s.env.contains ·.name)) &&
          (s.env.find? "f").any fun f =>
            (Function.invoke s.env 5 f [v] s.store).error?.bind unresolvedSymbol? == some "g") =
      true := by decide +kernel
  obtain ⟨⟨⟩, r, hr, hrun⟩ := Outcome.exists_of_passes hrun
  obtain ⟨v, s, hs, hrun⟩ := Outcome.exists_of_passes hrun
  obtain ⟨⟨⟩, t, ht, hrun⟩ := Outcome.exists_of_passes hrun
  simp only [Bool.and_eq_true, Option.any_eq_true, List.all_eq_true, Bool.not_eq_true',
    beq_iff_eq, Option.bind_eq_some_iff, unresolvedSymbol?_eq_some, exists_eq_right,
    Outcome.error?_eq_some] at hrun
  obtain ⟨⟨hknown, group, hgroup, hnew⟩, f, hf, hfails⟩ := hrun
  have hbuilt : r.Built False := .loadText .new (by rw [hr]; rfl)
  have hv : ∀ x ∈ [v], s.Knows x := List.forall_mem_singleton.mpr (hbuilt.knows_evalText hs)
  have hs' : s.Built False := .evalText hbuilt False.elim (by rw [hs]; rfl)
  have hadds := (declares_of_declarations? hgroup).adds hnew
  exact ⟨r, s, t, v, f, hr, hs, ht, hf, hknown, hfails,
    additions_leave_calls_alone hs' hadds ht (Environment.mem_functions_of_find? hf) hv⟩

end Session

end Clausal
