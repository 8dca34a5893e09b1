import Clausal.Eval

/-!
# Properties of all values

All values that an evaluation makes come from a few operations: items and entries are read, lists
and maps are made, joined, cut and merged under new identities. An `Invariant` is a property of
values, in a world that may grow as identities are handed out; `Invariant.Operational` says that the
operations on values keep it, and `Invariant.Lawful` also that all functions have it. The operators
of the language and the taking apart of lists are made of these operations, so they keep it too
(`Invariant.Operational.apply`, `Invariant.Operational.target`).

`Invariant.Keeps I n w s x P` is the judgement on a run `x` from the store `s` in the world `w`:
whether it ends in a value or in an error, all slots hold values with the property if they did
before, and the first `n` frames are as they were (`Store.Spares`); a value that it ends in has the
property `P`. Adding a frame keeps the frames before it, and so does writing to it.
-/

namespace Clausal

/-! ## Frames that stay -/

namespace Store

variable {κ : Type} {s t u : Store κ} {n : Nat}

/-- The first `n` frames of `s` are there in `t` as they were. -/
structure Spares (n : Nat) (s t : Store κ) : Prop where
  size : n ≤ t.frames.size
  frames : ∀ i < n, t.frames[i]? = s.frames[i]?

theorem Spares.refl (h : n ≤ s.frames.size) : Spares n s s := ⟨h, fun _ _ => rfl⟩

theorem Spares.trans (h : Spares n s t) (h' : Spares n t u) : Spares n s u :=
  ⟨h'.size, fun i hi => (h'.frames i hi).trans (h.frames i hi)⟩

theorem spares_push (h : n ≤ s.frames.size) (slots : Array Value) (parent : Option Nat) :
    Spares n s (s.push slots parent).2 := by
  refine ⟨by simp only [push, Array.size_push]; omega, fun i hi => ?_⟩
  rw [frames_push, Array.getElem?_push_lt (by omega), Array.getElem?_eq_getElem (by omega)]

theorem spares_write (h : n ≤ s.frames.size) {frame : Nat} (hframe : n ≤ frame) (index : Nat)
    (v : Value) : Spares n s (s.write frame index v) := by
  refine ⟨by simpa [write] using h, fun i hi => ?_⟩
  rw [frames_write, Array.getElem?_modify, if_neg (by omega)]

end Store

/-! ## Properties of values -/

/-- A property of values in a world. -/
structure Invariant (W : Type) where
  /-- The second world came after the first. -/
  le : W → W → Prop
  value : W → Value → Prop
  /-- The property of what a map holds. -/
  dict : W → Dict Value → Prop
  /-- The world in which this is the next unused identity. -/
  ids : W → Nat → Prop

/-- Whether a value holds no other value. -/
def Value.isPlain : Value → Bool
  | .list _ | .map _ => false
  | _ => true

/-- Whether a value holds no other value and is no function. -/
def Value.isScalar : Value → Bool
  | .list _ | .map _ | .function _ => false
  | _ => true

theorem Value.isPlain_of_isScalar {v : Value} (h : v.isScalar = true) : v.isPlain = true := by
  cases v <;> first | rfl | cases h

theorem Value.isScalar_ofLiteral (l : Literal) : (Value.ofLiteral l).isScalar = true := by
  cases l <;> rfl

/-- An operator that is refused gives no value. -/
theorem Value.eq_some_of_ok {r : Option Value} {c : Cause} {v : Value}
    (h : (match r with | some v => .ok v | none => .error c) = Except.ok v) : r = some v := by
  cases r <;> cases h
  rfl

theorem Value.isScalar_of_mem_numbers {start stop : Float} {v : Value}
    (h : v ∈ Value.numbers start stop) : v.isScalar = true := by
  have hcount (count i : Nat) (last : Float) (before : List Value)
      (hbefore : ∀ x ∈ before, x.isScalar = true) :
      ∀ x ∈ Value.countUp start stop count i last before, x.isScalar = true := by
    induction count generalizing i last before with
    | zero => simpa [Value.countUp] using hbefore
    | succ count ih =>
      unfold Value.countUp
      dsimp only
      split
      · simpa using hbefore
      · exact ih _ _ _ (List.forall_mem_cons.mpr ⟨rfl, hbefore⟩)
  unfold Value.numbers at h
  split at h
  · exact hcount _ _ _ _ (List.forall_mem_nil _) v h
  · cases h

namespace Invariant

variable {W : Type} (I : Invariant W)

/-- In a later world, after one identity has been handed out, the values have the property. -/
def Makes (w : W) (id : Nat) (vs : List Value) : Prop :=
  ∃ w', I.le w w' ∧ I.ids w' (id + 1) ∧ ∀ v ∈ vs, I.value w' v

/-- The operations on values keep the property. Nothing is said of functions. -/
structure Operational : Prop where
  refl : ∀ w, I.le w w
  trans : ∀ {w w' w''}, I.le w w' → I.le w' w'' → I.le w w''
  value_mono : ∀ {w w' v}, I.le w w' → I.value w v → I.value w' v
  dict_mono : ∀ {w w' d}, I.le w w' → I.dict w d → I.dict w' d
  scalar : ∀ {w v}, v.isScalar = true → I.value w v
  get? : ∀ {w xs i x}, I.value w (.list xs) → xs.get? i = some x → I.value w x
  content : ∀ {w t}, I.value w (.map t) → I.dict w t.content
  find? : ∀ {w d hash v}, I.dict w d → d.find? hash = some v → I.value w v
  empty : ∀ {w}, I.dict w .empty
  insert : ∀ {w d v} hash, I.dict w d → I.value w v → I.dict w (d.insert hash v)
  merge : ∀ {w d e}, I.dict w d → I.dict w e → I.dict w (d.append e)
  fresh : ∀ {w id}, I.ids w id → I.Makes w id []
  list : ∀ {w id vs}, I.ids w id → (∀ v ∈ vs, I.value w v) →
    I.Makes w id [.list (.ofList id vs)]
  append : ∀ {w id xs ys}, I.ids w id → I.value w (.list xs) → I.value w (.list ys) →
    I.Makes w id [.list (xs.append id ys)]
  extract : ∀ {w id xs} start stop, I.ids w id → I.value w (.list xs) →
    I.Makes w id [.list (xs.extract id start stop)]
  map : ∀ {w id d}, I.ids w id → I.dict w d → I.Makes w id [.map ⟨id, d⟩]

/-- The operations on values keep the property, and all functions have it. -/
structure Lawful : Prop extends I.Operational where
  function : ∀ {w f}, I.value w (.function f)

/-- All slots of a store, which has at least `n` frames, hold values with the property. -/
structure Ready (n : Nat) (w : W) (s : Store Closure) : Prop where
  slots : ∀ f ∈ s.frames, ∀ v ∈ f.slots, I.value w v
  ids : I.ids w s.nextId
  size : n ≤ s.frames.size

/-- A later world and store, in which the first `n` frames are as they were. -/
structure Later (n : Nat) (w : W) (s : Store Closure) (w' : W) (t : Store Closure) : Prop where
  le : I.le w w'
  ready : I.Ready n w' t
  spares : s.Spares n t

/-- The run `x` from `s` leads to later stores only, and to results with the property `P`. -/
def Keeps {α : Type} (n : Nat) (w : W) (s : Store Closure) (x : Eval α) (P : W → α → Prop) : Prop :=
  match x s with
  | .ok a t => ∃ w', I.Later n w s w' t ∧ P w' a
  | .fail _ t => ∃ w', I.Later n w s w' t
  | .exhausted => True

/-- All of some values have the property. -/
def values (w : W) (vs : List Value) : Prop := ∀ v ∈ vs, I.value w v

/-! ## Operations on values -/

namespace Operational

variable {I} (hI : I.Operational) {w w' : W}

include hI

theorem values_mono (h : I.le w w') {vs : List Value} (hvs : I.values w vs) : I.values w' vs :=
  fun v hv => hI.value_mono h (hvs v hv)

theorem item {xs : Sequence Value} (h : I.value w (.list xs)) (i : Nat) :
    I.value w (Value.item xs i) := by
  unfold Value.item
  cases hx : xs.get? i with
  | none => exact hI.scalar rfl
  | some v => exact hI.get? h hx

theorem items {xs : Sequence Value} (h : I.value w (.list xs)) : I.values w xs.items := by
  intro v hv
  obtain ⟨i, -, hi⟩ := List.mem_filterMap.mp hv
  exact hI.get? h hi

/-- What has the property already needs no identity. -/
theorem makes_of_values {id : Nat} {vs : List Value} (hids : I.ids w id) (hvs : I.values w vs) :
    I.Makes w id vs := by
  obtain ⟨w', hle, hids', -⟩ := hI.fresh hids
  exact ⟨w', hle, hids', hI.values_mono hle hvs⟩

theorem makes_scalar {id : Nat} {v : Value} (hids : I.ids w id) (hv : v.isScalar = true) :
    I.Makes w id [v] :=
  hI.makes_of_values hids fun _ hmem => List.mem_singleton.mp hmem ▸ hI.scalar hv

theorem makes_value {id : Nat} {v : Value} (hids : I.ids w id) (hv : I.value w v) :
    I.Makes w id [v] :=
  hI.makes_of_values hids fun _ hmem => List.mem_singleton.mp hmem ▸ hv

theorem add {id : Nat} {a b v : Value} (hids : I.ids w id) (ha : I.value w a) (hb : I.value w b)
    (h : a.add id b = some v) : I.Makes w id [v] := by
  unfold Value.add at h
  split at h
  all_goals cases h
  · exact hI.makes_scalar hids rfl
  · exact hI.append hids ha hb
  · exact hI.map hids (hI.merge (hI.content ha) (hI.content hb))
  all_goals exact hI.makes_scalar hids rfl

theorem index {a b v : Value} (ha : I.value w a) (h : a.index b = some v) : I.value w v := by
  unfold Value.index at h
  split at h
  · cases h
    split
    · exact hI.item ha _
    · exact hI.scalar rfl
  · cases h
    split <;> exact hI.scalar rfl
  · cases h
    unfold Value.entry
    cases hfind : Dict.find? _ _ with
    | none => exact hI.scalar rfl
    | some x => exact hI.find? (hI.content ha) hfind
  · cases h

theorem range {id : Nat} {a b v : Value} (hids : I.ids w id) (ha : I.value w a)
    (h : a.range id b = some v) : I.Makes w id [v] := by
  unfold Value.range at h
  split at h
  · cases h
    exact hI.list hids fun x hx => hI.scalar (Value.isScalar_of_mem_numbers hx)
  · cases h
    exact hI.extract _ _ hids ha
  · cases h
    exact hI.makes_scalar hids rfl
  · obtain ⟨bounds, -, rfl⟩ := Option.map_eq_some_iff.mp h
    exact hI.extract _ _ hids ha
  · obtain ⟨bounds, -, rfl⟩ := Option.map_eq_some_iff.mp h
    exact hI.makes_scalar hids rfl
  · cases h

theorem apply {id : Nat} {op : BinaryOp} {a b v : Value} (hids : I.ids w id) (ha : I.value w a)
    (hb : I.value w b) (h : op.apply id a b = .ok v) : I.Makes w id [v] := by
  cases op with
  | add => exact hI.add hids ha hb (Value.eq_some_of_ok h)
  | index => exact hI.makes_value hids (hI.index ha (Value.eq_some_of_ok h))
  | range => exact hI.range hids ha (Value.eq_some_of_ok h)
  | subtract | multiply | divide | power =>
    unfold BinaryOp.apply at h
    dsimp only at h
    split at h
    · next x y =>
      cases hr : Value.arithmetic _ x y <;> rw [hr] at h <;> cases h
      exact hI.makes_scalar hids rfl
    · cases h
  | equal | notEqual =>
    cases h
    exact hI.makes_scalar hids rfl
  | less | greater | lessEqual | greaterEqual =>
    unfold BinaryOp.apply at h
    dsimp only at h
    split at h
    · cases h
      exact hI.makes_scalar hids rfl
    · cases h
  | and =>
    cases h
    split
    · exact hI.makes_value hids hb
    · exact hI.makes_value hids ha
  | or =>
    cases h
    split
    · exact hI.makes_value hids ha
    · exact hI.makes_value hids hb

theorem unary {op : UnaryOp} {a v : Value} (h : op.apply a = .ok v) : I.value w v := by
  unfold UnaryOp.apply at h
  split at h
  all_goals cases h
  all_goals exact hI.scalar rfl

theorem target {id : Nat} {target : Target} {v : Value} {vs : List Value} (hids : I.ids w id)
    (hv : I.value w v) (h : target.values v id = .ok vs) : I.Makes w id vs := by
  unfold Target.values at h
  split at h
  · cases h
    exact hI.makes_value hids hv
  · next front rest =>
    split at h
    · next xs =>
      cases h
      obtain ⟨w', hle, hids', hrest⟩ := hI.extract front.length xs.size hids hv
      refine ⟨w', hle, hids', fun x hx => ?_⟩
      rcases List.mem_append.mp hx with hx | hx
      · obtain ⟨i, -, rfl⟩ := List.mem_map.mp hx
        exact hI.value_mono hle (hI.item hv i)
      · obtain ⟨_, -, rfl⟩ := List.mem_map.mp hx
        exact hrest _ (List.mem_singleton_self _)
    · cases h

end Operational

namespace Lawful

variable {I} (hI : I.Lawful) {α β : Type} {n : Nat} {w w' : W} {s t : Store Closure}
  {x : Eval α} {P : W → α → Prop} {Q : W → β → Prop}

include hI

theorem plain {v : Value} (hv : v.isPlain = true) : I.value w v := by
  cases v with
  | list | map => cases hv
  | function => exact hI.function
  | _ => exact hI.scalar rfl

/-! ## Rules -/

theorem later_refl (hs : I.Ready n w s) : I.Later n w s w s := ⟨hI.refl w, hs, .refl hs.size⟩

theorem later_trans {w'' : W} {u : Store Closure} (h : I.Later n w s w' t)
    (h' : I.Later n w' t w'' u) : I.Later n w s w'' u :=
  ⟨hI.trans h.le h'.le, h'.ready, h.spares.trans h'.spares⟩

/-- A run that goes on from a later store as `y` does. -/
theorem after {y z : Eval α} (h : I.Later n w s w' t) (hy : I.Keeps n w' t y P)
    (hrun : z s = y t) : I.Keeps n w s z P := by
  unfold Keeps at hy ⊢
  rw [hrun]
  split at hy
  · obtain ⟨w'', h', hP⟩ := hy
    exact ⟨w'', hI.later_trans h h', hP⟩
  · obtain ⟨w'', h'⟩ := hy
    exact ⟨w'', hI.later_trans h h'⟩
  · trivial

theorem bind {f : α → Eval β} (hx : I.Keeps n w s x P)
    (hf : ∀ a w' t, I.Later n w s w' t → P w' a → I.Keeps n w' t (f a) Q) :
    I.Keeps n w s (x >>= f) Q := by
  unfold Keeps at hx
  split at hx
  · next a t hrun =>
    obtain ⟨w', hlater, ha⟩ := hx
    exact hI.after hlater (hf a w' t hlater ha) (Run.bind_ok hrun)
  · next c t hrun =>
    unfold Keeps
    rw [Run.bind_fail hrun]
    exact hx
  · next hrun =>
    unfold Keeps
    rw [Run.bind_exhausted hrun]
    trivial

theorem ret (hs : I.Ready n w s) {a : α} (ha : P w a) : I.Keeps n w s (pure a) P :=
  ⟨w, hI.later_refl hs, ha⟩

theorem fail (hs : I.Ready n w s) (c : Cause) : I.Keeps n w s (Run.fail c) P :=
  ⟨w, hI.later_refl hs⟩

theorem ofExcept (hs : I.Ready n w s) {r : Except Cause α} (hr : ∀ a, r = .ok a → P w a) :
    I.Keeps n w s (Run.ofExcept r) P := by
  cases r with
  | ok a => exact hI.ret hs (hr a rfl)
  | error c => exact hI.fail hs c

omit hI in
theorem read_bind {f : Store Closure → α} {k : α → Eval β} (h : I.Keeps n w s (k (f s)) Q) :
    I.Keeps n w s (Run.read f >>= k) Q := h

/-- Handing out an identity and going on with what is made under it. -/
theorem fresh_bind {f : Nat → Eval β} {vs : List Value} (hs : I.Ready n w s)
    (hvs : I.Makes w s.nextId vs)
    (hf : ∀ w' t, I.Later n w s w' t → I.values w' vs → I.Keeps n w' t (f s.nextId) Q) :
    I.Keeps n w s (Eval.fresh >>= f) Q := by
  obtain ⟨w', hle, hids, hval⟩ := hvs
  have hstep : I.Later n w s w' s.fresh.2 :=
    ⟨hle, ⟨fun fr hfr v hv => hI.value_mono hle (hs.slots fr hfr v hv), hids, hs.size⟩,
      hs.size, fun _ _ => rfl⟩
  exact hI.after hstep (hf w' _ hstep hval) rfl

/-- Making a list or a map. -/
theorem make {v : Nat → Value} (hs : I.Ready n w s) (hv : I.Makes w s.nextId [v s.nextId]) :
    I.Keeps n w s (do return v (← Eval.fresh)) I.value :=
  hI.fresh_bind hs hv fun _ _ hlater hval =>
    hI.ret hlater.ready (hval _ (List.mem_singleton_self _))

/-- A new frame is behind the first `n`. -/
theorem push_bind {f : Nat → Eval β} {slots : Array Value} {parent : Option Nat}
    (hs : I.Ready n w s) (hslots : ∀ v ∈ slots, I.value w v)
    (hf : ∀ inner t, n ≤ inner → I.Later n w s w t → I.Keeps n w t (f inner) Q) :
    I.Keeps n w s (Eval.push slots parent >>= f) Q := by
  have hspares := s.spares_push hs.size slots parent
  have hstep : I.Later n w s w (s.push slots parent).2 := by
    refine ⟨hI.refl w, ⟨fun fr hfr => ?_, hs.ids, hspares.size⟩, hspares⟩
    rcases Array.mem_push.mp hfr with hfr | rfl
    · exact hs.slots fr hfr
    · exact hslots
  exact hI.after hstep (hf s.frames.size _ hs.size hstep) rfl

theorem write (hs : I.Ready n w s) {frame : Nat} (hframe : n ≤ frame) (index : Nat) {v : Value}
    (hv : I.value w v) : I.Keeps n w s (Eval.write frame index v) fun _ _ => True := by
  have hspares := s.spares_write hs.size hframe index v
  refine ⟨w, ⟨hI.refl w, ⟨fun fr hfr x hx => ?_, hs.ids, hspares.size⟩, hspares⟩, trivial⟩
  obtain ⟨i, hi⟩ := Array.getElem?_of_mem hfr
  simp only [Store.write, Array.getElem?_modify] at hi
  split at hi
  · obtain ⟨old, hold, rfl⟩ := Option.map_eq_some_iff.mp hi
    rcases Array.mem_or_eq_of_mem_setIfInBounds hx with hx | rfl
    · exact hs.slots old (Array.mem_of_getElem? hold) x hx
    · exact hv
  · exact hs.slots fr (Array.mem_of_getElem? hi) x hx

theorem close (hs : I.Ready n w s) (c : Closure) : I.Keeps n w s (Eval.close c) I.value :=
  ⟨w, ⟨hI.refl w, ⟨hs.slots, hs.ids, hs.size⟩, hs.size, fun _ _ => rfl⟩, hI.plain rfl⟩

theorem print (hs : I.Ready n w s) (line : String) :
    I.Keeps n w s (Run.modify (·.printLine line)) fun _ _ => True :=
  ⟨w, ⟨hI.refl w, ⟨hs.slots, hs.ids, hs.size⟩, hs.size, fun _ _ => rfl⟩, trivial⟩

theorem catching {f : Cause → Eval α} (hx : I.Keeps n w s x P)
    (hf : ∀ c w' t, I.Later n w s w' t → I.Keeps n w' t (f c) P) :
    I.Keeps n w s (Eval.catching x f) P := by
  unfold Keeps at hx
  split at hx
  · next a t hrun =>
    have hcatch : Eval.catching x f s = .ok a t := Run.recover_ok hrun
    unfold Keeps
    rw [hcatch]
    exact hx
  · next c t hrun =>
    obtain ⟨w', hlater⟩ := hx
    exact hI.after hlater (hf c w' t hlater) (Run.recover_fail hrun)
  · next hrun =>
    have hcatch : Eval.catching x f s = .exhausted := Run.recover_exhausted hrun
    unfold Keeps
    rw [hcatch]
    trivial

theorem lookup (hs : I.Ready n w s) (frame index depth : Nat) :
    I.value w (s.lookup frame index depth) := by
  unfold Store.lookup
  cases hslot : s.slot? frame index depth with
  | none => exact hI.plain rfl
  | some v =>
    simp only [Store.slot?, Option.bind_eq_bind, Option.bind_eq_some_iff] at hslot
    obtain ⟨up, -, f, hf, hv⟩ := hslot
    exact hs.slots f (Array.mem_of_getElem? hf) v (Array.mem_of_getElem? hv)

end Lawful

end Invariant

end Clausal
