import Clausal.Eval

/-!
# Dictionaries in two columns

A dictionary has every value beside its key. A map is kept in two columns, one of keys and one of
values, that nothing ties to each other: whatever is made of a key is done to the one and then to
the other, values are assigned by the place of their key, and an assignment or a look outside the
column would not be survived.

* `Dict.keys_insert`, `Dict.keys_append`: which keys writing and joining leave, and in which order.
* `Columns.put`, `Columns.concat`, `Columns.evalLoop`: writing an entry, joining two maps, and the
  loop of a map literal, on columns; `none` where a place is missing or the columns are not of one
  length in the end.
* `Columns.put_columns`, `Columns.concat_columns`, `Columns.evalLoop_columns`: from the columns of
  dictionaries they lead to the columns of what the dictionaries become, and never to `none`.
* `Columns.Made.even`, `Columns.Made.nodup_keys`: so whatever columns are made, there are as many
  keys as values, and the keys are distinct.
-/

namespace Clausal

/-! ## Keys and values -/

namespace Dict

variable {α : Type} {d a b : Dict α} {hash : UInt64} {v x : α} {entries : List (UInt64 × α)}

/-- The hashes of the keys, in order. -/
def keys (d : Dict α) : List UInt64 := d.entries.map (·.1)

/-- The values, in order. -/
def values (d : Dict α) : List α := d.entries.map (·.2)

theorem contains_iff : d.contains hash = true ↔ hash ∈ d.keys := by
  simp [contains, keys]

theorem mem_values_of_find? (h : d.find? hash = some v) : v ∈ d.values := by
  obtain ⟨entries⟩ := d
  simp only [find?, values] at h ⊢
  induction entries with
  | nil => cases h
  | cons e es ih =>
    obtain ⟨k, w⟩ := e
    rw [List.lookup_cons] at h
    split at h
    · cases h
      exact List.mem_cons_self
    · exact List.mem_cons_of_mem _ (ih h)

theorem keys_replace (hash : UInt64) (v : α) (entries : List (UInt64 × α)) :
    (replace hash v entries).map (·.1) = entries.map (·.1) := by
  induction entries with
  | nil => rfl
  | cons e es ih =>
    obtain ⟨k, w⟩ := e
    rw [replace]
    split
    · rfl
    · rw [List.map_cons, List.map_cons, ih]

theorem mem_values_replace (h : x ∈ (replace hash v entries).map (·.2)) :
    x = v ∨ x ∈ entries.map (·.2) := by
  induction entries with
  | nil => cases h
  | cons e es ih =>
    obtain ⟨k, w⟩ := e
    rw [replace] at h
    split at h
    · rcases List.mem_cons.mp h with rfl | h
      · exact .inl rfl
      · exact .inr (List.mem_cons_of_mem _ h)
    · rcases List.mem_cons.mp h with rfl | h
      · exact .inr List.mem_cons_self
      · exact (ih h).imp_right (List.mem_cons_of_mem _)

/-- An entry that is written again keeps its place. -/
theorem keys_insert (d : Dict α) (hash : UInt64) (v : α) :
    (d.insert hash v).keys = if hash ∈ d.keys then d.keys else d.keys ++ [hash] := by
  rw [insert]
  split
  · next h => rw [if_pos (contains_iff.mp h), keys, keys_replace, keys]
  · next h => rw [if_neg fun hmem => h (contains_iff.mpr hmem), keys, List.map_append, keys]; rfl

theorem mem_values_insert (h : x ∈ (d.insert hash v).values) : x = v ∨ x ∈ d.values := by
  rw [insert] at h
  split at h
  · exact mem_values_replace h
  · rw [values, List.map_append] at h
    rcases List.mem_append.mp h with h | h
    · exact .inr h
    · exact .inl (List.mem_singleton.mp h)

/-- Write one entry of a second dictionary into what has become of the entries of `a`. -/
def join (a : Dict α) (entries : List (UInt64 × α)) (e : UInt64 × α) : List (UInt64 × α) :=
  if a.contains e.1 then replace e.1 e.2 entries else entries ++ [e]

theorem append_eq_foldl (a b : Dict α) : a.append b = ⟨b.entries.foldl a.join a.entries⟩ := rfl

theorem keys_join (a : Dict α) (entries : List (UInt64 × α)) (e : UInt64 × α) :
    (a.join entries e).map (·.1) =
      entries.map (·.1) ++ [e.1].filter fun hash => !a.contains hash := by
  rw [join]
  split
  · next h => simp [h, keys_replace]
  · next h => simp [h]

theorem mem_values_join {e : UInt64 × α} (h : x ∈ (a.join entries e).map (·.2)) :
    x ∈ entries.map (·.2) ∨ x = e.2 := by
  rw [join] at h
  split at h
  · exact (mem_values_replace h).symm
  · rw [List.map_append] at h
    exact (List.mem_append.mp h).imp_right List.mem_singleton.mp

/-- Joining adds the keys of the second dictionary that the first does not have, each as often as
the second has it. -/
theorem keys_append (a b : Dict α) :
    (a.append b).keys = a.keys ++ b.keys.filter fun hash => !a.contains hash := by
  have hrun (es entries : List (UInt64 × α)) : (es.foldl a.join entries).map (·.1) =
      entries.map (·.1) ++ (es.map (·.1)).filter fun hash => !a.contains hash := by
    induction es generalizing entries with
    | nil => simp
    | cons e es ih =>
      rw [List.foldl_cons, ih, keys_join, List.append_assoc, ← List.filter_append]
      rfl
  exact hrun b.entries a.entries

theorem mem_values_append (h : x ∈ (a.append b).values) : x ∈ a.values ∨ x ∈ b.values := by
  have hrun (es entries : List (UInt64 × α)) (h : x ∈ (es.foldl a.join entries).map (·.2)) :
      x ∈ entries.map (·.2) ∨ x ∈ es.map (·.2) := by
    induction es generalizing entries with
    | nil => exact .inl h
    | cons e es ih =>
      rcases ih _ h with h | h
      · rcases mem_values_join h with h | rfl
        · exact .inl h
        · exact .inr List.mem_cons_self
      · exact .inr (List.mem_cons_of_mem _ h)
  exact hrun b.entries a.entries h

theorem nodup_keys_insert (h : d.keys.Nodup) (hash : UInt64) (v : α) :
    (d.insert hash v).keys.Nodup := by
  rw [keys_insert]
  split
  · exact h
  · next hnew => exact List.nodup_append.mpr ⟨h, by simp, by grind⟩

theorem nodup_keys_append (ha : a.keys.Nodup) (hb : b.keys.Nodup) : (a.append b).keys.Nodup := by
  rw [keys_append]
  refine List.nodup_append.mpr ⟨ha, hb.filter _, fun k hk k' hk' heq => ?_⟩
  subst heq
  have hnot : a.contains k = false := by simpa using (List.mem_filter.mp hk').2
  rw [contains_iff.mpr hk] at hnot
  cases hnot

end Dict

/-! ## Two columns -/

/-- The keys of a map, as hashes, and its values. -/
structure Columns (α : Type) where
  keys : List UInt64 := []
  values : List α := []

/-- A dictionary as columns. -/
def Dict.columns {α : Type} (d : Dict α) : Columns α := ⟨d.keys, d.values⟩

namespace Columns

variable {α : Type} {x : Columns α} {a : Dict α} {hash : UInt64}

/-- As many keys as values. -/
def Even (x : Columns α) : Prop := x.keys.length = x.values.length

/-- A map of two columns, which have to be of one length. -/
def create (keys : List UInt64) (values : List α) : Option (Columns α) :=
  if keys.length = values.length then some ⟨keys, values⟩ else none

/-- The place of the first key with this hash. -/
def index? (x : Columns α) (hash : UInt64) : Option Nat := x.keys.findIdx? (· == hash)

/-- The value under a key, if there is one. -/
def find? (x : Columns α) (hash : UInt64) : Option (Option α) :=
  match x.index? hash with
  | some i => x.values[i]?.map some
  | none => some none

/-- The keys with their values. -/
def entries (x : Columns α) : List (UInt64 × α) := x.keys.zip x.values

/-- Assign the value in a place. -/
def assign (x : Columns α) (i : Nat) (v : α) : Option (Columns α) :=
  if i < x.values.length then some { x with values := x.values.set i v } else none

/-- Put a key at the end of the one column and its value at the end of the other. -/
def push (x : Columns α) (hash : UInt64) (v : α) : Columns α :=
  ⟨x.keys ++ [hash], x.values ++ [v]⟩

/-- Write an entry in a place or else at the end. -/
def put (x : Columns α) (place : Option Nat) (hash : UInt64) (v : α) : Option (Columns α) :=
  match place with
  | some i => x.assign i v
  | none => some (x.push hash v)

/-- The entries of `a`, overridden and extended by those of `b`. Places are those of `a`. -/
def concat (a b : Columns α) : Option (Columns α) := do
  let c ← b.entries.foldlM (fun c e => c.put (a.index? e.1) e.1 e.2) a
  create c.keys c.values

/-- The columns that start empty and are made by writing and joining. -/
inductive Made : Columns α → Prop
  | empty : Made {}
  | put {x y : Columns α} {hash : UInt64} {v : α} (hx : Made x)
      (hput : x.put (x.index? hash) hash v = some y) : Made y
  | concat {x y z : Columns α} (hx : Made x) (hy : Made y) (hconcat : x.concat y = some z) : Made z

/-- What columns say. -/
def dict (x : Columns α) : Dict α := ⟨x.entries⟩

theorem even_columns (d : Dict α) : d.columns.Even := by
  rw [Even, Dict.columns, Dict.keys, Dict.values, List.length_map, List.length_map]

theorem dict_columns (d : Dict α) : d.columns.dict = d := by
  rw [dict, entries, Dict.columns, Dict.keys, Dict.values, List.zip_map']
  simp

/-- Columns of one length are those of a dictionary. -/
theorem Even.columns_dict (h : x.Even) : x.dict.columns = x := by
  obtain ⟨keys, values⟩ := x
  rw [Dict.columns, Dict.keys, Dict.values, dict, entries, List.map_fst_zip (Nat.le_of_eq h),
    List.map_snd_zip (Nat.le_of_eq h.symm)]

/-! ## Operations -/

theorem isSome_index?_columns (d : Dict α) (hash : UInt64) :
    (d.columns.index? hash).isSome = d.contains hash := by
  rw [Bool.eq_iff_iff, Dict.contains_iff, index?, List.findIdx?_isSome, List.any_eq_true]
  simp [Dict.columns]

/-- In the place of a key is the value that is found under it, and replacing the value is assigning
it there. -/
theorem value_in_place {entries : List (UInt64 × α)} {i : Nat}
    (h : (entries.map (·.1)).findIdx? (· == hash) = some i) :
    ∃ w, (entries.map (·.2))[i]? = some w ∧ entries.lookup hash = some w ∧
      ∀ v, (Dict.replace hash v entries).map (·.2) = (entries.map (·.2)).set i v := by
  induction entries generalizing i with
  | nil => cases h
  | cons e es ih =>
    obtain ⟨k, w⟩ := e
    rw [List.map_cons, List.findIdx?_cons] at h
    by_cases hk : k = hash
    · rw [if_pos (beq_iff_eq.mpr hk)] at h
      cases h
      exact ⟨w, rfl, by simp [hk], fun v => by simp [Dict.replace, hk]⟩
    · rw [if_neg fun heq => hk (beq_iff_eq.mp heq)] at h
      obtain ⟨j, hj, rfl⟩ := Option.map_eq_some_iff.mp h
      obtain ⟨w', hget, hfound, hset⟩ := ih hj
      have hne : (hash == k) = false := beq_eq_false_iff_ne.mpr (Ne.symm hk)
      exact ⟨w', hget, by rw [List.lookup_cons, hne]; exact hfound,
        fun v => by simp [Dict.replace, hk, hset v]⟩

/-- As long as the keys of `a` come first, a place in `a` is one in what it has become. -/
theorem put_join {c : Dict α} (h : a.keys <+: c.keys) (e : UInt64 × α) :
    c.columns.put (a.columns.index? e.1) e.1 e.2 = some (Dict.columns ⟨a.join c.entries e⟩) := by
  obtain ⟨hash, v⟩ := e
  have hcontains := isSome_index?_columns a hash
  rw [Dict.join]
  cases hplace : a.columns.index? hash with
  | none =>
    rw [hplace] at hcontains
    rw [if_neg (Bool.eq_false_iff.mp hcontains.symm)]
    simp [put, push, Dict.columns, Dict.keys, Dict.values]
  | some i =>
    rw [hplace] at hcontains
    obtain ⟨more, hmore⟩ := h
    have hfirst : c.keys.findIdx? (· == hash) = some i := by
      rw [← hmore, List.findIdx?_append, show a.keys.findIdx? (· == hash) = some i from hplace,
        Option.some_or]
    obtain ⟨w, hget, -, hset⟩ := value_in_place hfirst
    have hin : i < c.columns.values.length := (List.getElem?_eq_some_iff.mp hget).1
    rw [if_pos (show a.contains hash = true from hcontains.symm), put, assign, if_pos hin]
    simp only [Dict.columns, Dict.keys, Dict.values, Dict.keys_replace, hset]

/-- Writing an entry finds its place, or there is none. -/
theorem put_columns (d : Dict α) (hash : UInt64) (v : α) :
    d.columns.put (d.columns.index? hash) hash v = some (d.insert hash v).columns := by
  rw [put_join (List.prefix_refl _) (hash, v), Dict.join, Dict.insert]
  split <;> rfl

theorem find?_columns (d : Dict α) (hash : UInt64) :
    d.columns.find? hash = some (d.find? hash) := by
  have hcontains := isSome_index?_columns d hash
  rw [find?, Dict.find?]
  cases hplace : d.columns.index? hash with
  | none =>
    rw [hplace] at hcontains
    have hnone : d.entries.lookup hash = none :=
      List.lookup_eq_none_iff.mpr fun e he => bne_iff_ne.mpr fun heq =>
        List.any_eq_false.mp hcontains.symm e he (beq_iff_eq.mpr heq.symm)
    rw [hnone]
  | some i =>
    obtain ⟨w, hget, hfound, -⟩ := value_in_place hplace
    rw [hfound]
    exact congrArg (Option.map some) hget

theorem foldlM_put {c : Dict α} (h : a.keys <+: c.keys) (es : List (UInt64 × α)) :
    es.foldlM (fun c e => c.put (a.columns.index? e.1) e.1 e.2) c.columns =
      some (Dict.columns ⟨es.foldl a.join c.entries⟩) := by
  induction es generalizing c with
  | nil => rfl
  | cons e es ih =>
    have hnext : a.keys <+: Dict.keys ⟨a.join c.entries e⟩ :=
      h.trans ⟨_, (Dict.keys_join a c.entries e).symm⟩
    rw [List.foldlM_cons, put_join h, List.foldl_cons]
    exact ih hnext

/-- Joining finds a place for every value, and the columns are of one length in the end. -/
theorem concat_columns (a b : Dict α) : a.columns.concat b.columns = some (a.append b).columns := by
  have hentries : b.columns.entries = b.entries := congrArg Dict.entries (dict_columns b)
  rw [concat, hentries, foldlM_put (List.prefix_refl _), Dict.append_eq_foldl]
  exact if_pos (even_columns _)

/-! ## Map literals -/

/-- The loop of a map literal: evaluate the values in turn and write each under its key. -/
def evalLoop (env : Environment) (invoke : Invoke Cause Closure) (frame : Nat)
    (x : Columns Value) : List (String × Expr) → Eval (Option (Columns Value))
  | [] => return create x.keys x.values
  | (key, value) :: rest => do
    let v ← value.eval env invoke frame
    match x.put (x.index? (keyHash key)) (keyHash key) v with
    | some y => evalLoop env invoke frame y rest
    | none => return none

/-- A map literal of some keys and values. -/
def evalLiteral (env : Environment) (invoke : Invoke Cause Closure) (frame : Nat)
    (keys : List String) (values : List Expr) : Eval (Option (Columns Value)) :=
  evalLoop env invoke frame {} (keys.zip values)

/-- The loop finds a place for every value, and the columns are of one length in the end. -/
theorem evalLoop_columns (env : Environment) (invoke : Invoke Cause Closure) (frame : Nat)
    (d : Dict Value) (entries : List (String × Expr)) :
    evalLoop env invoke frame d.columns entries = (do
      let d' ← Entry.evalAll env invoke frame d (entries.map fun e => ⟨e.1, e.2⟩)
      return some d'.columns) := by
  induction entries generalizing d with
  | nil => exact congrArg Pure.pure (if_pos (even_columns d))
  | cons e entries ih =>
    obtain ⟨key, value⟩ := e
    rw [evalLoop, List.map_cons, Entry.evalAll, bind_assoc]
    congr 1
    funext v
    rw [put_columns]
    exact ih _

theorem evalLiteral_eq (env : Environment) (invoke : Invoke Cause Closure) (frame : Nat)
    (keys : List String) (values : List Expr) :
    evalLiteral env invoke frame keys values = (do
      let d ← Entry.evalAll env invoke frame .empty ((keys.zip values).map fun e => ⟨e.1, e.2⟩)
      return some d.columns) :=
  evalLoop_columns env invoke frame .empty _

section

variable {env : Environment} {invoke : Invoke Cause Closure} {frame : Nat} {keys : List String}
  {values : List Expr} {s t : Store Closure}

/-- The columns of a literal are of one length, and every assignment is to a place there is. -/
theorem evalLiteral_ne_none : evalLiteral env invoke frame keys values s ≠ .ok none t := by
  rw [evalLiteral_eq]
  intro h
  obtain ⟨d, u, -, h⟩ := Run.bind_eq_ok_iff.mp h
  cases h

/-- The map that is the value of a literal has the columns of the literal. -/
theorem evalLiteral_of_eval {v : Value}
    (h : (Expr.map ((keys.zip values).map fun e => ⟨e.1, e.2⟩)).eval env invoke frame s = .ok v t) :
    ∃ d id u, evalLiteral env invoke frame keys values s = .ok (some (Dict.columns d)) u ∧
      v = .map ⟨id, d⟩ := by
  rw [Expr.eval] at h
  obtain ⟨d, u, hd, h⟩ := Run.bind_eq_ok_iff.mp h
  cases h
  rw [evalLiteral_eq]
  exact ⟨d, u.nextId, u, Run.bind_ok hd, rfl⟩

end

/-! ## What is made -/

theorem Even.keys_dict (h : x.Even) : x.dict.keys = x.keys :=
  congrArg Columns.keys h.columns_dict

theorem Even.put_eq (h : x.Even) (hash : UInt64) (v : α) :
    x.put (x.index? hash) hash v = some (x.dict.insert hash v).columns := by
  rw [← put_columns, h.columns_dict]

theorem Even.concat_eq {y : Columns α} (hx : x.Even) (hy : y.Even) :
    x.concat y = some (x.dict.append y.dict).columns := by
  rw [← concat_columns, hx.columns_dict, hy.columns_dict]

theorem Made.even (h : x.Made) : x.Even := by
  induction h with
  | empty => rfl
  | put _ hput ih =>
    rw [ih.put_eq] at hput
    cases hput
    exact even_columns _
  | concat _ _ hconcat ihx ihy =>
    rw [ihx.concat_eq ihy] at hconcat
    cases hconcat
    exact even_columns _

theorem Made.nodup_keys (h : x.Made) : x.keys.Nodup := by
  induction h with
  | empty => exact List.nodup_nil
  | put hx hput ih =>
    rw [hx.even.put_eq] at hput
    cases hput
    exact Dict.nodup_keys_insert (hx.even.keys_dict ▸ ih) _ _
  | concat hx hy hconcat ihx ihy =>
    rw [hx.even.concat_eq hy.even] at hconcat
    cases hconcat
    exact Dict.nodup_keys_append (hx.even.keys_dict ▸ ihx) (hy.even.keys_dict ▸ ihy)

/-- Under a key of columns that are made is what their dictionary has there. -/
theorem Made.find?_eq (h : x.Made) (hash : UInt64) : x.find? hash = some (x.dict.find? hash) := by
  rw [← find?_columns, h.even.columns_dict]

/-- The columns of any dictionary with distinct keys are made by writing its entries in turn. -/
theorem made_columns {d : Dict α} (h : d.keys.Nodup) : d.columns.Made := by
  obtain ⟨entries⟩ := d
  have hrun (done rest : List (UInt64 × α)) (hdone : Made (Dict.columns ⟨done⟩))
      (hkeys : (Dict.keys ⟨done ++ rest⟩).Nodup) : Made (Dict.columns ⟨done ++ rest⟩) := by
    induction rest generalizing done with
    | nil => rwa [List.append_nil]
    | cons e rest ih =>
      have hnew : e.1 ∉ Dict.keys ⟨done⟩ := fun hold => by
        rw [Dict.keys, List.map_append] at hkeys
        exact (List.nodup_append.mp hkeys).2.2 _ hold _ List.mem_cons_self rfl
      rw [List.append_cons] at hkeys ⊢
      refine ih _ ?_ hkeys
      have hinsert : Dict.insert ⟨done⟩ e.1 e.2 = ⟨done ++ [e]⟩ :=
        if_neg fun hold => hnew (Dict.contains_iff.mp hold)
      exact hinsert ▸ hdone.put (put_columns ⟨done⟩ e.1 e.2)
  exact hrun [] entries .empty h

end Columns

end Clausal
