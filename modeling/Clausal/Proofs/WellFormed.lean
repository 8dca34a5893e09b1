import Clausal.Proofs.Columns
import Clausal.Proofs.Rope
import Clausal.Proofs.Upkeep

/-!
# Well-formed values

What holds of every list and map that a program can get hold of. Every node of a rope is as making
ropes leaves it (`Rope.Sound`): the size of a concatenation is the sum of the sizes of its parts,
and the bounds of a slice lie inside its base. Sizes are words and the sum is one of words, so a
concatenation that is longer than a word can say has a wrong size; as long as no list is that long
(`Rope.WithinWord`), the sizes are those of the sequences (`Rope.Sound.valid`). The keys of a map
are pairwise distinct: a key that is written again keeps its place (`Dict.keys_insert`), and joining
two maps adds the keys of the second that the first does not have (`Dict.keys_append`), which are
distinct only if those of the second are. In two columns, a map has as many keys as values
(`Columns.Made.even`).

`Value.WellFormed` says so of everything that a value holds. All operations on values keep it
(`Invariant.lawful_wellFormed`), so every evaluation does.
-/

namespace Clausal

/-! ## Ropes -/

namespace Rope

variable {α : Type} {r a b : Rope α} {x : α} {i start stop count : Nat}

/-- What making ropes leaves every node with, however long the ropes are. -/
def Sound : Rope α → Prop
  | .leaf _ => True
  | .cat head tail size =>
    size = (head.size + tail.size) % wordSize ∧ copied < size ∧ 0 < head.size ∧ 0 < tail.size ∧
      head.Sound ∧ tail.Sound
  | .slice base start stop =>
    start < stop ∧ stop ≤ base.size ∧ copied < stop - start ∧ base.isSlice = false ∧ base.Sound

/-- No concatenation in a rope is longer than a word can say. -/
def WithinWord : Rope α → Prop
  | .leaf _ => True
  | .cat head tail _ => head.size + tail.size < wordSize ∧ head.WithinWord ∧ tail.WithinWord
  | .slice base _ _ => base.WithinWord

theorem Sound.valid (h : r.Sound) (hword : r.WithinWord) : r.Valid := by
  induction r with
  | leaf items => trivial
  | cat head tail size ihead itail =>
    obtain ⟨hsize, hlong, hpos, hpos', hhead, htail⟩ := h
    obtain ⟨hsum, hword, hword'⟩ := hword
    rw [Nat.mod_eq_of_lt hsum] at hsize
    exact ⟨hsize, hlong, hpos, hpos', ihead hhead hword, itail htail hword'⟩
  | slice base start stop ih =>
    obtain ⟨hlt, hstop, hlong, hbase, hsound⟩ := h
    exact ⟨hlt, hstop, hlong, hbase, ih hsound hword⟩

theorem Sound.append (ha : a.Sound) (hb : b.Sound) : (a.append b).Sound := by
  rw [Rope.append]
  split
  · exact hb
  split
  · exact ha
  dsimp only
  split
  · trivial
  · next hea heb hlong =>
    exact ⟨rfl, by omega, size_pos_of_not_isEmpty hea, size_pos_of_not_isEmpty heb, ha, hb⟩

theorem Sound.view (h : r.Sound) (hlt : start < stop) (hstop : stop ≤ r.size)
    (hlong : copied < stop - start) : (r.view start stop).Sound := by
  cases r with
  | slice base offset last =>
    obtain ⟨hsome, hlast, -, hbase, hsound⟩ := h
    simp only [size] at hstop
    exact ⟨by omega, by omega, by omega, hbase, hsound⟩
  | leaf items => exact ⟨hlt, hstop, hlong, rfl, h⟩
  | cat head tail total => exact ⟨hlt, hstop, hlong, rfl, h⟩

theorem Sound.extract (h : r.Sound) (start stop : Nat) : (r.extract start stop).Sound := by
  rw [Rope.extract]
  split
  · exact h
  split
  · trivial
  split
  · trivial
  · exact h.view (by omega) (by omega) (by omega)

/-! ## What a rope stores -/

/-- The items of all arrays of a rope, those outside the bounds of a slice included. -/
def stored : Rope α → List α
  | .leaf items => items.toList
  | .cat head tail _ => head.stored ++ tail.stored
  | .slice base _ _ => base.stored

theorem mem_stored_of_get? (h : r.get? i = some x) : x ∈ r.stored := by
  induction r generalizing i with
  | leaf items => exact Array.mem_toList_iff.mpr (Array.mem_of_getElem? h)
  | cat head tail size ihead itail =>
    unfold get? at h
    split at h
    · split at h
      · exact List.mem_append_left _ (ihead h)
      · exact List.mem_append_right _ (itail h)
    · cases h
  | slice base start stop ih =>
    unfold get? at h
    split at h
    · exact ih h
    · cases h

theorem mem_stored_of_mem_stretch (h : x ∈ r.stretch start count) : x ∈ r.stored := by
  obtain ⟨i, -, hi⟩ := List.mem_filterMap.mp h
  exact mem_stored_of_get? hi

theorem sizeOf_lt_of_mem_stored [SizeOf α] (h : x ∈ r.stored) : sizeOf x < sizeOf r := by
  induction r with
  | leaf items =>
    have hlt := Array.sizeOf_lt_of_mem (Array.mem_toList_iff.mp h)
    simp only [leaf.sizeOf_spec]
    omega
  | cat head tail size ihead itail =>
    simp only [cat.sizeOf_spec]
    rcases List.mem_append.mp h with h | h
    · have hlt := ihead h
      omega
    · have hlt := itail h
      omega
  | slice base start stop ih =>
    have hlt := ih h
    simp only [slice.sizeOf_spec]
    omega

/-- A concatenation stores nothing new. -/
theorem mem_stored_append (h : x ∈ (a.append b).stored) : x ∈ a.stored ∨ x ∈ b.stored := by
  rw [Rope.append] at h
  split at h
  · exact .inr h
  split at h
  · exact .inl h
  dsimp only at h
  split at h
  · rcases List.mem_append.mp h with h | h
    · exact .inl (mem_stored_of_mem_stretch h)
    · exact .inr (mem_stored_of_mem_stretch h)
  · exact List.mem_append.mp h

/-- A slice stores nothing new. -/
theorem mem_stored_extract (h : x ∈ (r.extract start stop).stored) : x ∈ r.stored := by
  rw [Rope.extract] at h
  split at h
  · exact h
  split at h
  · cases h
  split at h
  · exact mem_stored_of_mem_stretch h
  · cases r <;> exact h

end Rope

/-! ## Values -/

/-- Every list in a value is made as ropes are made, and the keys of every map in it are distinct;
what lists store outside their bounds is in it too. -/
inductive Value.WellFormed : Value → Prop
  | plain {v : Value} (h : v.isPlain = true) : WellFormed v
  | list {xs : Sequence Value} (hsound : xs.content.Sound)
      (hstored : ∀ v ∈ xs.content.stored, WellFormed v) : WellFormed (.list xs)
  | map {t : Table Value} (hkeys : t.content.keys.Nodup)
      (hvalues : ∀ v ∈ t.content.values, WellFormed v) : WellFormed (.map t)

namespace Value.WellFormed

theorem sound {xs : Sequence Value} (h : WellFormed (.list xs)) : xs.content.Sound := by
  cases h with
  | plain h => cases h
  | list hsound _ => exact hsound

theorem stored {xs : Sequence Value} (h : WellFormed (.list xs)) :
    ∀ v ∈ xs.content.stored, v.WellFormed := by
  cases h with
  | plain h => cases h
  | list _ hstored => exact hstored

theorem nodup_keys {t : Table Value} (h : WellFormed (.map t)) : t.content.keys.Nodup := by
  cases h with
  | plain h => cases h
  | map hkeys _ => exact hkeys

theorem values {t : Table Value} (h : WellFormed (.map t)) :
    ∀ v ∈ t.content.values, v.WellFormed := by
  cases h with
  | plain h => cases h
  | map _ hvalues => exact hvalues

end Value.WellFormed

/-- All slots of all frames hold well-formed values. -/
def Store.WellFormed (s : Store Closure) : Prop :=
  ∀ f ∈ s.frames, ∀ v ∈ f.slots, v.WellFormed

namespace Invariant

/-- Well-formedness needs no world: identities are of no account. -/
def wellFormed : Invariant Unit where
  le _ _ := True
  value _ v := v.WellFormed
  dict _ d := d.keys.Nodup ∧ ∀ v ∈ d.values, v.WellFormed
  ids _ _ := True

theorem makes_wellFormed {id : Nat} {v : Value} (h : v.WellFormed) :
    wellFormed.Makes () id [v] :=
  ⟨(), trivial, trivial, fun _ hx => List.mem_singleton.mp hx ▸ h⟩

theorem lawful_wellFormed : wellFormed.Lawful where
  refl _ := trivial
  trans _ _ := trivial
  value_mono _ h := h
  dict_mono _ h := h
  scalar h := .plain (Value.isPlain_of_isScalar h)
  function := .plain rfl
  get? h hx := h.stored _ (Rope.mem_stored_of_get? hx)
  content h := ⟨h.nodup_keys, h.values⟩
  find? h hv := h.2 _ (Dict.mem_values_of_find? hv)
  empty := ⟨List.nodup_nil, List.forall_mem_nil _⟩
  insert hash hd hv := by
    refine ⟨Dict.nodup_keys_insert hd.1 hash _, fun x hx => ?_⟩
    rcases Dict.mem_values_insert hx with rfl | hx
    · exact hv
    · exact hd.2 x hx
  merge hd he :=
    ⟨Dict.nodup_keys_append hd.1 he.1,
      fun x hx => (Dict.mem_values_append hx).elim (hd.2 x) (he.2 x)⟩
  fresh _ := ⟨(), trivial, trivial, List.forall_mem_nil _⟩
  list := by
    intro w id vs _ hvs
    refine makes_wellFormed ?_
    unfold Sequence.ofList
    split
    · exact .list trivial (List.forall_mem_nil _)
    · exact .list trivial hvs
  append := by
    intro w id xs ys _ hxs hys
    refine makes_wellFormed ?_
    unfold Sequence.append
    split
    · exact hys
    split
    · exact hxs
    · refine .list (hxs.sound.append hys.sound) fun v hv => ?_
      rcases Rope.mem_stored_append hv with hv | hv
      · exact hxs.stored v hv
      · exact hys.stored v hv
  extract := by
    intro w id xs start stop _ hxs
    refine makes_wellFormed ?_
    unfold Sequence.extract
    dsimp only
    split
    · exact hxs
    split
    · exact .list trivial (List.forall_mem_nil _)
    · exact .list (hxs.sound.extract _ _) fun v hv => hxs.stored v (Rope.mem_stored_extract hv)
  map _ hd := makes_wellFormed (.map hd.1 hd.2)

end Invariant

/-! ## Main statement -/

/-- The values of an outcome and of the store it leaves are well formed. -/
def Outcome.WellFormed : Outcome Cause (Store Closure) Value → Prop
  | .ok v t => v.WellFormed ∧ t.WellFormed
  | .fail _ t => t.WellFormed
  | .exhausted => True

theorem Invariant.Keeps.wellFormed {n : Nat} {s : Store Closure} {x : Eval Value}
    (h : Invariant.wellFormed.Keeps n () s x Invariant.wellFormed.value) : (x s).WellFormed := by
  unfold Invariant.Keeps at h
  split at h
  · next hx =>
    obtain ⟨_, hlater, hv⟩ := h
    rw [hx]
    exact ⟨hv, hlater.ready.slots⟩
  · next hx =>
    obtain ⟨_, hlater⟩ := h
    rw [hx]
    exact hlater.ready.slots
  · next hx =>
    rw [hx]
    trivial

/-- A map literal has a map as its value. -/
theorem Expr.eval_map_eq_ok {env : Environment} {invoke : Invoke Cause Closure} {frame : Nat}
    {entries : List Entry} {s t : Store Closure} {v : Value}
    (h : (Expr.map entries).eval env invoke frame s = .ok v t) : ∃ m, v = .map m := by
  rw [Expr.eval] at h
  obtain ⟨content, s₁, -, h⟩ := Run.bind_eq_ok_iff.mp h
  cases h
  exact ⟨_, rfl⟩

/-- If all values in frames and all arguments are well formed, then so is everything that an
evaluation or a call makes, stores or leaves behind when it fails. So its lists, as long as sizes
are words, are as ropes should be, and its maps have distinct keys, those included that come from a
literal with repeated keys or from joining maps. With keys and values in two columns, both make a
map of columns that are filled alike: a value that is assigned or looked up is in its place, and in
the end there are as many keys as values. -/
theorem Store.WellFormed.evaluation_keeps (env : Environment) (depth : Nat) {s : Store Closure}
    (hs : s.WellFormed) :
    (∀ (e : Expr) (frame : Nat), (e.eval env (Function.invoke env depth) frame s).WellFormed) ∧
    (∀ (callee : Value) (args : List Value), (∀ v ∈ args, v.WellFormed) →
      (callee.call (Function.invoke env depth) args s).WellFormed) ∧
    (∀ (f : Function) (args : List Value), (∀ v ∈ args, v.WellFormed) →
      (Function.invoke env depth f args s).WellFormed) ∧
    (∀ xs : Sequence Value, Value.WellFormed (.list xs) → xs.content.WithinWord →
      xs.content.Valid) ∧
    (∀ (entries : List Entry) (frame : Nat) (v : Value) (t : Store Closure),
      (Expr.map entries).eval env (Function.invoke env depth) frame s = .ok v t →
        ∃ m, v = .map m ∧ m.content.keys.Nodup) ∧
    (∀ (id : Nat) (a b : Table Value), Value.WellFormed (.map a) → Value.WellFormed (.map b) →
      ∃ m, BinaryOp.add.apply id (.map a) (.map b) = .ok (.map m) ∧ m.content.keys.Nodup ∧
        m.content.keys =
          a.content.keys ++ b.content.keys.filter fun k => !a.content.contains k) ∧
    (∀ x : Columns Value, x.Made → x.Even ∧ x.keys.Nodup ∧
      ∀ hash, x.find? hash = some (x.dict.find? hash)) ∧
    (∀ m : Table Value, Value.WellFormed (.map m) →
      ∃ x : Columns Value, x.Made ∧ x.dict = m.content) ∧
    (∀ (keys : List String) (values : List Expr) (frame : Nat),
      (∀ t, Columns.evalLiteral env (Function.invoke env depth) frame keys values s ≠
        .ok none t) ∧
      ∀ v t, (Expr.map ((keys.zip values).map fun e => ⟨e.1, e.2⟩)).eval env
          (Function.invoke env depth) frame s = .ok v t →
        ∃ x id u, Columns.evalLiteral env (Function.invoke env depth) frame keys values s =
            .ok (some x) u ∧ x.Made ∧ v = .map ⟨id, x.dict⟩) ∧
    (∀ (id : Nat) (a b : Table Value) (x y : Columns Value), x.Made → y.Made →
      x.dict = a.content → y.dict = b.content →
        ∃ z m, x.concat y = some z ∧ z.Made ∧
          BinaryOp.add.apply id (.map a) (.map b) = .ok (.map m) ∧ z.dict = m.content) := by
  have hready : Invariant.wellFormed.Ready 0 () s := ⟨hs, trivial, Nat.zero_le _⟩
  have hI := Invariant.lawful_wellFormed
  have hcalls := hI.invoke_keeps env depth
  have heval (e : Expr) (frame : Nat) :
      (e.eval env (Function.invoke env depth) frame s).WellFormed :=
    (hI.eval_keeps hcalls hready frame e).wellFormed
  have hliteral (entries : List Entry) (frame : Nat) (v : Value) (t : Store Closure)
      (h : (Expr.map entries).eval env (Function.invoke env depth) frame s = .ok v t) :
      ∃ m, v = .map m ∧ m.content.keys.Nodup := by
    obtain ⟨m, rfl⟩ := Expr.eval_map_eq_ok h
    have hwell := heval (.map entries) frame
    rw [h] at hwell
    exact ⟨m, rfl, hwell.1.nodup_keys⟩
  refine ⟨heval, fun callee args hargs => ?_, fun f args hargs => ?_, ?_, hliteral, ?_,
    fun x hx => ⟨hx.even, hx.nodup_keys, hx.find?_eq⟩, ?_, ?_, ?_⟩
  · exact (hI.call_keeps hcalls hready callee hargs).wellFormed
  · exact (hcalls f args 0 () s hready hargs).wellFormed
  · exact fun xs hxs hword => hxs.sound.valid hword
  · intro id a b ha hb
    exact ⟨_, rfl, Dict.nodup_keys_append ha.nodup_keys hb.nodup_keys, Dict.keys_append _ _⟩
  · intro m hm
    exact ⟨_, Columns.made_columns hm.nodup_keys, Columns.dict_columns _⟩
  · intro keys values frame
    refine ⟨fun t => Columns.evalLiteral_ne_none, fun v t h => ?_⟩
    obtain ⟨d, id, u, hrun, rfl⟩ := Columns.evalLiteral_of_eval h
    obtain ⟨m, hm, hkeys⟩ := hliteral _ frame _ t h
    cases hm
    refine ⟨_, id, u, hrun, Columns.made_columns hkeys, ?_⟩
    rw [Columns.dict_columns]
  · intro id a b x y hx hy hxa hyb
    have hconcat := hx.even.concat_eq hy.even
    rw [hxa, hyb] at hconcat
    exact ⟨_, _, hconcat, hx.concat hy hconcat, rfl, Columns.dict_columns _⟩

/-- `{a: true, a: false} + {b: (), a: ()}` in an empty store: the map has two keys, and there are
columns of one length for it. -/
theorem Store.WellFormed.evaluation_keeps_joined :
    let entry (key : String) (l : Literal) : Entry := ⟨key, .literal l⟩
    let left : Expr := .map [entry "a" (.bool true), entry "a" (.bool false)]
    let right : Expr := .map [entry "b" .void, entry "a" .void]
    ∃ m t, (Expr.binary .add left right).eval {} (Function.invoke {} 0) 0 {} = .ok (.map m) t ∧
      m.content.keys.Nodup ∧ m.content.size = 2 ∧
      ∃ x : Columns Value, x.dict = m.content ∧ x.keys.length = x.values.length := by
  intro entry left right
  have hs : Store.WellFormed {} := fun f hf => absurd hf (Array.not_mem_empty f)
  obtain ⟨heval, -, -, -, -, -, hmade, hcolumns, -⟩ :=
    Store.WellFormed.evaluation_keeps {} 0 hs
  have hrun : (Expr.binary .add left right).eval {} (Function.invoke {} 0) 0 {} =
      .ok (.map _) _ := rfl
  have hwell := heval (.binary .add left right) 0
  rw [hrun] at hwell
  obtain ⟨x, hx, hdict⟩ := hcolumns _ hwell.1
  exact ⟨_, _, hrun, hwell.1.nodup_keys, by decide +kernel, x, hdict, (hmade x hx).1⟩

end Clausal
