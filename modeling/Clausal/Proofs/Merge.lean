import Clausal.Proofs.WellFormed

/-!
# Joining dictionaries

A dictionary with distinct keys is given by the order of its keys and by what is found under each of
them (`Dict.eq_of_keys_eq`). So a law of joining is a law of the two:

* `Dict.keys_append`: the keys of the first, and behind them the new ones of the second.
* `Dict.find?_append`: what the second has under a key, and otherwise what the first has. Joining
  looks for a key only in the first dictionary, not in what it has become, so this takes distinct
  keys in the second.

A map literal is evaluated without joining, by writing one entry after the other. Writing an entry
is joining a dictionary of one entry (`Dict.insert_eq_append`), so a literal is the one-entry
dictionaries of its entries, joined from left to right (`Entry.evalAll_eq`).
-/

namespace Clausal

namespace Dict

variable {α : Type} {a b c : Dict α} {k key : UInt64} {es entries : List (UInt64 × α)}

/-! ## Finding entries -/

theorem lookup_eq_none_iff_not_mem : es.lookup k = none ↔ k ∉ es.map (·.1) := by
  rw [List.lookup_eq_none_iff]
  constructor
  · intro h hmem
    obtain ⟨e, he, rfl⟩ := List.mem_map.mp hmem
    simpa using h e he
  · intro h e he
    simp only [bne_iff_ne, ne_eq]
    rintro rfl
    exact h (List.mem_map_of_mem he)

theorem isSome_find? (d : Dict α) (k : UInt64) : (d.find? k).isSome = d.contains k := by
  rw [Bool.eq_iff_iff, contains_iff, Option.isSome_iff_ne_none, ne_eq, find?,
    lookup_eq_none_iff_not_mem]
  exact Decidable.not_not

theorem lookup_replace_self (h : key ∈ es.map (·.1)) (v : α) :
    (replace key v es).lookup key = some v := by
  induction es with
  | nil => simp at h
  | cons e es ih =>
    obtain ⟨k', x⟩ := e
    by_cases hk : k' = key
    · simp [replace, hk]
    · have hmem : key ∈ es.map (·.1) := by simpa [Ne.symm hk] using h
      have hne : (key == k') = false := by simpa using Ne.symm hk
      simp only [replace, if_neg hk, List.lookup_cons, hne]
      exact ih hmem

theorem lookup_replace_of_ne (h : k ≠ key) (v : α) (es : List (UInt64 × α)) :
    (replace key v es).lookup k = es.lookup k := by
  induction es with
  | nil => rfl
  | cons e es ih =>
    obtain ⟨k', x⟩ := e
    by_cases hk : k' = key
    · have hne : (k == k') = false := by simpa [hk] using h
      simp [replace, hk, List.lookup_cons, hk ▸ hne]
    · simp [replace, hk, List.lookup_cons, ih]

/-- Writing one entry of a second dictionary, as long as what `a` has become has the key of the
entry if and only if `a` has it. -/
theorem lookup_join {e : UInt64 × α} (h : e.1 ∈ entries.map (·.1) ↔ a.contains e.1 = true)
    (k : UInt64) :
    (a.join entries e).lookup k = if k = e.1 then some e.2 else entries.lookup k := by
  obtain ⟨key, v⟩ := e
  dsimp only at h ⊢
  rw [join]
  by_cases hold : a.contains key = true
  · rw [if_pos hold]
    by_cases hk : k = key
    · rw [if_pos hk, hk]
      exact lookup_replace_self (h.mpr hold) v
    · rw [if_neg hk]
      exact lookup_replace_of_ne hk v entries
  · rw [if_neg hold, List.lookup_append]
    by_cases hk : k = key
    · have hnone : entries.lookup key = none :=
        lookup_eq_none_iff_not_mem.mpr fun hmem => hold (h.mp hmem)
      simp [hk, hnone]
    · have hne : (k == key) = false := by simpa using hk
      simp [hk, List.lookup_cons, hne]

theorem lookup_foldl_join (hes : (es.map (·.1)).Nodup)
    (h : ∀ e ∈ es, e.1 ∈ entries.map (·.1) ↔ a.contains e.1 = true) (k : UInt64) :
    (es.foldl a.join entries).lookup k = (es.lookup k).or (entries.lookup k) := by
  induction es generalizing entries with
  | nil => simp
  | cons e es ih =>
    obtain ⟨key, v⟩ := e
    obtain ⟨hnot, hnodup⟩ := List.nodup_cons.mp hes
    -- a key that comes later is not the one that has just been written
    have hlater : ∀ e ∈ es, e.1 ∈ (a.join entries (key, v)).map (·.1) ↔ a.contains e.1 = true := by
      intro e he
      have hne : e.1 ≠ key := fun heq => hnot (List.mem_map.mpr ⟨e, he, heq⟩)
      rw [keys_join, List.mem_append, h e (List.mem_cons_of_mem _ he)]
      simp [hne]
    rw [List.foldl_cons, ih hnodup hlater, lookup_join (h _ List.mem_cons_self)]
    by_cases hk : k = key
    · have hnone : es.lookup key = none := lookup_eq_none_iff_not_mem.mpr hnot
      simp [hk, hnone]
    · have hne : (k == key) = false := by simpa using hk
      simp [hk, List.lookup_cons, hne]

/-- The second dictionary overrides the first. -/
theorem find?_append (a : Dict α) (hb : b.keys.Nodup) (k : UInt64) :
    (a.append b).find? k = (b.find? k).or (a.find? k) := by
  rw [append_eq_foldl]
  exact lookup_foldl_join hb (fun e _ => contains_iff.symm) k

theorem contains_append (a b : Dict α) (k : UInt64) :
    (a.append b).contains k = (a.contains k || b.contains k) := by
  rw [Bool.eq_iff_iff, contains_iff, keys_append, List.mem_append, List.mem_filter, Bool.or_eq_true,
    ← contains_iff, ← contains_iff]
  by_cases ha : a.contains k = true <;> simp [ha]

/-! ## Laws -/

theorem eq_of_lookup_eq {es es' : List (UInt64 × α)} (hes : (es.map (·.1)).Nodup)
    (hkeys : es.map (·.1) = es'.map (·.1)) (hfind : ∀ k, es.lookup k = es'.lookup k) :
    es = es' := by
  induction es generalizing es' with
  | nil => exact (List.map_eq_nil_iff.mp hkeys.symm).symm
  | cons e es ih =>
    cases es' with
    | nil => simp at hkeys
    | cons e' es' =>
      obtain ⟨key, v⟩ := e
      obtain ⟨key', v'⟩ := e'
      simp only [List.map_cons, List.cons.injEq] at hkeys
      obtain ⟨rfl, hkeys⟩ := hkeys
      obtain ⟨hnot, hnodup⟩ := List.nodup_cons.mp hes
      have hv : v = v' := by simpa [List.lookup_cons] using hfind key
      have hrest : es = es' := by
        refine ih hnodup hkeys fun k => ?_
        by_cases hk : k = key
        · rw [hk, lookup_eq_none_iff_not_mem.mpr hnot,
            lookup_eq_none_iff_not_mem.mpr (hkeys ▸ hnot)]
        · have hne : (k == key) = false := by simpa using hk
          simpa [List.lookup_cons, hne] using hfind k
      rw [hv, hrest]

/-- A dictionary with distinct keys is given by their order and by what is found under them. -/
theorem eq_of_keys_eq (ha : a.keys.Nodup) (hkeys : a.keys = b.keys)
    (hfind : ∀ k, a.find? k = b.find? k) : a = b :=
  congrArg Dict.mk (eq_of_lookup_eq ha hkeys hfind)

theorem append_assoc (ha : a.keys.Nodup) (hb : b.keys.Nodup) (hc : c.keys.Nodup) :
    (a.append b).append c = a.append (b.append c) := by
  have hbc := nodup_keys_append hb hc
  refine eq_of_keys_eq (nodup_keys_append (nodup_keys_append ha hb) hc) ?_ fun k => ?_
  · simp only [keys_append, contains_append, List.filter_append, List.filter_filter,
      List.append_assoc, Bool.not_or]
  · rw [find?_append _ hc, find?_append _ hb, find?_append _ hbc, find?_append _ hc,
      Option.or_assoc]

theorem append_empty (a : Dict α) : a.append empty = a := rfl

theorem empty_append (ha : a.keys.Nodup) : empty.append a = a := by
  refine eq_of_keys_eq (nodup_keys_append List.nodup_nil ha) ?_ fun k => ?_
  · rw [keys_append]
    simp [keys, empty, contains]
  · rw [find?_append _ ha]
    simp [find?, empty]

theorem append_self (ha : a.keys.Nodup) : a.append a = a := by
  refine eq_of_keys_eq (nodup_keys_append ha ha) ?_ fun k => ?_
  · rw [keys_append, List.filter_eq_nil_iff.mpr, List.append_nil]
    intro k hk
    simp [contains_iff.mpr hk]
  · rw [find?_append _ ha, Option.or_self]

/-! ## Literals -/

/-- Writing an entry is joining a dictionary of one entry. -/
theorem insert_eq_append (d : Dict α) (key : String) (v : α) :
    d.insert (keyHash key) v = d.append (ofEntries [(key, v)]) := by
  by_cases h : d.contains (keyHash key) = true <;> simp [insert, append, ofEntries, h]

/-- Dictionaries of one entry each, joined from left to right. -/
def joinAll (entries : List (String × α)) : Dict α :=
  entries.foldl (fun d e => d.append (ofEntries [e])) empty

/-- The value under a hash, or void. -/
def get (d : Dict Value) (hash : UInt64) : Value := (d.find? hash).getD .void

end Dict

/-- The entries of a map literal: all values are evaluated, from left to right, and joined under
their keys to what has been written. -/
theorem Entry.evalAll_eq (env : Environment) (invoke : Invoke Cause Closure) (frame : Nat)
    (written : Dict Value) (entries : List Entry) :
    Entry.evalAll env invoke frame written entries = (do
      let vs ← Expr.evalAll env invoke frame (entries.map (·.value))
      return ((entries.map (·.key)).zip vs).foldl
        (fun d e => d.append (.ofEntries [e])) written) := by
  induction entries generalizing written with
  | nil => rfl
  | cons entry entries ih =>
    obtain ⟨key, value⟩ := entry
    simp [Entry.evalAll, Expr.evalAll, ih, Dict.insert_eq_append]

theorem Expr.eval_map_of_evalAll {env : Environment} {invoke : Invoke Cause Closure} {frame : Nat}
    {entries : List Entry} {s t : Store Closure} {vs : List Value}
    (h : Expr.evalAll env invoke frame (entries.map (·.value)) s = .ok vs t) :
    (Expr.map entries).eval env invoke frame s =
      .ok (.map ⟨t.nextId, .joinAll ((entries.map (·.key)).zip vs)⟩) t.fresh.2 := by
  have hentries : Entry.evalAll env invoke frame .empty entries s =
      .ok (.joinAll ((entries.map (·.key)).zip vs)) t := by
    rw [Entry.evalAll_eq, Run.bind_ok h]
    rfl
  rw [Expr.eval, Run.bind_ok hentries]
  rfl

/-! ## Main statement -/

theorem Dict.get_append {a b : Dict Value} (hb : b.keys.Nodup) (k : UInt64) :
    (a.append b).get k = if b.contains k then b.get k else a.get k := by
  rw [get, find?_append a hb, ← isSome_find? b k, get, get]
  cases b.find? k <;> rfl

/-- Joining dictionaries with distinct keys gives one with distinct keys: those of the first in
their order, and then the new ones of the second in theirs. What is under a key is what the second
has there, or else the first, or else void. Joining is associative to the entry, the empty
dictionary changes nothing on either side, and neither does joining a dictionary to itself. A map
literal whose values can be evaluated is the dictionary joined of its entries from left to right. -/
theorem Dict.joining_overrides_in_place {a b c : Dict Value} (ha : a.keys.Nodup)
    (hb : b.keys.Nodup) (hc : c.keys.Nodup) :
    (a.append b).keys.Nodup ∧
    (a.append b).keys = a.keys ++ b.keys.filter (fun k => !a.contains k) ∧
    (∀ k, (a.append b).contains k = (a.contains k || b.contains k)) ∧
    (∀ k, (a.append b).get k = if b.contains k then b.get k else a.get k) ∧
    (∀ k, (a.append b).contains k = false → (a.append b).get k = .void) ∧
    (a.append b).append c = a.append (b.append c) ∧
    Dict.empty.append a = a ∧ a.append .empty = a ∧
    a.append a = a ∧
    (∀ (env : Environment) (invoke : Invoke Cause Closure) (frame : Nat) (entries : List Entry)
      (s t : Store Closure) (vs : List Value),
      Expr.evalAll env invoke frame (entries.map (·.value)) s = .ok vs t →
        (Expr.map entries).eval env invoke frame s =
          .ok (.map ⟨t.nextId, joinAll ((entries.map (·.key)).zip vs)⟩) t.fresh.2) := by
  refine ⟨nodup_keys_append ha hb, keys_append a b, contains_append a b, get_append hb, ?_,
    append_assoc ha hb hc, empty_append ha, append_empty a, append_self ha, ?_⟩
  · intro k hk
    have hnone : ((a.append b).find? k).isSome = false := by rw [isSome_find?, hk]
    rw [get, Option.isSome_eq_false_iff.mp hnone |> Option.isNone_iff_eq_none.mp]
    rfl
  · intro env invoke frame entries s t vs h
    exact Expr.eval_map_of_evalAll h

/-- Three maps that override each other, and a literal that writes one key twice. -/
theorem Dict.joining_overrides_in_place_xyz :
    let a : Dict Value := .ofEntries [("x", .bool true), ("y", .void)]
    let b : Dict Value := .ofEntries [("y", .bool false), ("z", .void)]
    let c : Dict Value := .ofEntries [("z", .bool true), ("x", .void)]
    let entry (key : String) (b : Bool) : Entry := ⟨key, .literal (.bool b)⟩
    (a.append b).keys = ["x", "y", "z"].map keyHash ∧ (a.append b).get (keyHash "y") = .bool false ∧
      (a.append b).append c = a.append (b.append c) ∧
      ∃ t, (Expr.map [entry "x" true, entry "y" true, entry "x" false]).eval {}
        (Function.invoke {} 0) 0 {} =
          .ok (.map ⟨1, joinAll [("x", .bool true), ("y", .bool true), ("x", .bool false)]⟩) t := by
  intro a b c entry
  have ha : a.keys.Nodup := by decide +kernel
  have hb : b.keys.Nodup := by decide +kernel
  have hc : c.keys.Nodup := by decide +kernel
  obtain ⟨-, hkeys, -, hget, -, hassoc, -, -, -, hliteral⟩ :=
    Dict.joining_overrides_in_place ha hb hc
  refine ⟨?_, ?_, hassoc, _, hliteral {} (Function.invoke {} 0) 0
    [entry "x" true, entry "y" true, entry "x" false] {} {} _ rfl⟩
  · rw [hkeys]
    decide +kernel
  · rw [hget, if_pos (by decide +kernel)]
    simp [b, get, find?, ofEntries]

end Clausal
