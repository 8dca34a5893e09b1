import Clausal.Proofs.WellFormed

/-!
# Identities

One and the same list or map equals itself whatever it holds, so comparing looks at identities
first. That rests on an identity being that of one list or map: two lists with one identity have
one content. A `Heap` says which content an identity is that of, and `Value.LivesIn` that all lists
and maps in a value have the content that the heap gives their identities.

Evaluation only ever adds to the heap (`Store.LivesIn.eval`, `Store.LivesIn.invoke`): what is made
gets an unused identity, and what is empty or the whole of something else keeps the identity it has.
-/

namespace Clausal

/-- What the lists and the maps of all identities below `next` hold. -/
structure Heap where
  list : Nat → Rope Value
  map : Nat → Dict Value
  next : Nat

namespace Heap

/-- `w'` has all identities of `w`, with the same content. -/
structure Extends (w w' : Heap) : Prop where
  next : w.next ≤ w'.next
  list : ∀ i < w.next, w'.list i = w.list i
  map : ∀ i < w.next, w'.map i = w.map i

theorem Extends.refl (w : Heap) : w.Extends w := ⟨Nat.le_refl _, fun _ _ => rfl, fun _ _ => rfl⟩

theorem Extends.trans {w w' w'' : Heap} (h : w.Extends w') (h' : w'.Extends w'') :
    w.Extends w'' := by
  have hnext := h.next
  refine ⟨Nat.le_trans hnext h'.next, fun i hi => ?_, fun i hi => ?_⟩
  · rw [h'.list i (by omega), h.list i hi]
  · rw [h'.map i (by omega), h.map i hi]

/-- The next unused identity is `id`, and the first one is that of the empty list. -/
structure Before (w : Heap) (id : Nat) : Prop where
  next : w.next = id
  pos : Sequence.emptyId < id
  empty : w.list Sequence.emptyId = .empty

/-- One identity more, that of the list `content`. -/
def addList (w : Heap) (content : Rope Value) : Heap :=
  { w with list := fun i => if i = w.next then content else w.list i, next := w.next + 1 }

/-- One identity more, that of the map `content`. -/
def addMap (w : Heap) (content : Dict Value) : Heap :=
  { w with map := fun i => if i = w.next then content else w.map i, next := w.next + 1 }

variable {w : Heap} {id : Nat}

theorem extends_addList (w : Heap) (content : Rope Value) : w.Extends (w.addList content) :=
  ⟨Nat.le_succ _, fun i hi => if_neg (by omega), fun _ _ => rfl⟩

theorem extends_addMap (w : Heap) (content : Dict Value) : w.Extends (w.addMap content) :=
  ⟨Nat.le_succ _, fun _ _ => rfl, fun i hi => if_neg (by omega)⟩

theorem Before.addList (h : w.Before id) (content : Rope Value) :
    (w.addList content).Before (id + 1) := by
  have hpos := h.pos
  refine ⟨congrArg (· + 1) h.next, by omega, ?_⟩
  rw [(w.extends_addList content).list _ (by rw [h.next]; exact hpos), h.empty]

theorem Before.addMap (h : w.Before id) (content : Dict Value) :
    (w.addMap content).Before (id + 1) := by
  have hpos := h.pos
  exact ⟨congrArg (· + 1) h.next, by omega, h.empty⟩

end Heap

/-- All lists and maps in a value have the content that the heap gives their identities. -/
inductive Value.LivesIn (w : Heap) : Value → Prop
  | plain {v : Value} (h : v.isPlain = true) : LivesIn w v
  | list {xs : Sequence Value} (hid : xs.id < w.next) (hcontent : w.list xs.id = xs.content)
      (hstored : ∀ v ∈ xs.content.stored, LivesIn w v) : LivesIn w (.list xs)
  | map {t : Table Value} (hid : t.id < w.next) (hcontent : w.map t.id = t.content)
      (hvalues : ∀ v ∈ t.content.values, LivesIn w v) : LivesIn w (.map t)

namespace Value.LivesIn

variable {w w' : Heap}

theorem stored {xs : Sequence Value} (h : LivesIn w (.list xs)) :
    ∀ v ∈ xs.content.stored, LivesIn w v := by
  cases h with
  | plain h => cases h
  | list _ _ hstored => exact hstored

theorem values {t : Table Value} (h : LivesIn w (.map t)) :
    ∀ v ∈ t.content.values, LivesIn w v := by
  cases h with
  | plain h => cases h
  | map _ _ hvalues => exact hvalues

/-- Two lists of one identity hold the same. -/
theorem content_eq {xs ys : Sequence Value} (hxs : LivesIn w (.list xs))
    (hys : LivesIn w (.list ys)) (hid : xs.id = ys.id) : xs.content = ys.content := by
  cases hxs with
  | plain h => cases h
  | list _ hcontent _ =>
    cases hys with
    | plain h => cases h
    | list _ hcontent' _ => rw [← hcontent, ← hcontent', hid]

/-- Two maps of one identity hold the same. -/
theorem entries_eq {t u : Table Value} (ht : LivesIn w (.map t)) (hu : LivesIn w (.map u))
    (hid : t.id = u.id) : t.content = u.content := by
  cases ht with
  | plain h => cases h
  | map _ hcontent _ =>
    cases hu with
    | plain h => cases h
    | map _ hcontent' _ => rw [← hcontent, ← hcontent', hid]

theorem mono (h : w.Extends w') {v : Value} (hv : LivesIn w v) : LivesIn w' v := by
  have hnext := h.next
  induction hv with
  | plain hplain => exact .plain hplain
  | list hid hcontent _ ih =>
    exact .list (by omega) ((h.list _ hid).trans hcontent) ih
  | map hid hcontent _ ih => exact .map (by omega) ((h.map _ hid).trans hcontent) ih

end Value.LivesIn

namespace Invariant

/-- Having the content that a heap says: a property that goes with the identities handed out. -/
def coherent : Invariant Heap where
  le := Heap.Extends
  value w v := v.LivesIn w
  dict w d := ∀ v ∈ d.values, v.LivesIn w
  ids := Heap.Before

variable {w : Heap} {id : Nat}

theorem makes_list {content : Rope Value} (hids : w.Before id)
    (hstored : ∀ v ∈ content.stored, v.LivesIn w) : coherent.Makes w id [.list ⟨id, content⟩] := by
  have hext := w.extends_addList content
  refine ⟨w.addList content, hext, hids.addList content, fun v hv => ?_⟩
  rw [List.mem_singleton.mp hv, ← hids.next]
  exact .list (Nat.lt_succ_self _) (if_pos rfl) fun x hx => (hstored x hx).mono hext

theorem makes_map {content : Dict Value} (hids : w.Before id)
    (hvalues : ∀ v ∈ content.values, v.LivesIn w) : coherent.Makes w id [.map ⟨id, content⟩] := by
  have hext := w.extends_addMap content
  refine ⟨w.addMap content, hext, hids.addMap content, fun v hv => ?_⟩
  rw [List.mem_singleton.mp hv, ← hids.next]
  exact .map (Nat.lt_succ_self _) (if_pos rfl) fun x hx => (hvalues x hx).mono hext

/-- An identity that is handed out may remain unused. -/
theorem makes_old {v : Value} (hids : w.Before id) (hv : v.LivesIn w) :
    coherent.Makes w id [v] := by
  have hext := w.extends_addList .empty
  refine ⟨w.addList .empty, hext, hids.addList _, fun x hx => ?_⟩
  rw [List.mem_singleton.mp hx]
  exact hv.mono hext

theorem livesIn_empty (hids : w.Before id) : (Value.list .empty).LivesIn w := by
  refine .list ?_ hids.empty (List.forall_mem_nil _)
  rw [hids.next]
  exact hids.pos

theorem lawful_coherent : coherent.Lawful where
  refl := Heap.Extends.refl
  trans := Heap.Extends.trans
  value_mono h hv := hv.mono h
  dict_mono h hd v hv := (hd v hv).mono h
  scalar h := .plain (Value.isPlain_of_isScalar h)
  function := .plain rfl
  get? h hx := h.stored _ (Rope.mem_stored_of_get? hx)
  content h := h.values
  find? h hv := h _ (Dict.mem_values_of_find? hv)
  empty := List.forall_mem_nil _
  insert hash hd hv x hx := by
    rcases Dict.mem_values_insert hx with rfl | hx
    · exact hv
    · exact hd x hx
  merge hd he x hx := (Dict.mem_values_append hx).elim (hd x) (he x)
  fresh {w id} hids :=
    ⟨w.addList .empty, w.extends_addList _, hids.addList _, List.forall_mem_nil _⟩
  list := by
    intro w id vs hids hvs
    unfold Sequence.ofList
    split
    · exact makes_old hids (livesIn_empty hids)
    · exact makes_list hids hvs
  append := by
    intro w id xs ys hids hxs hys
    unfold Sequence.append
    split
    · exact makes_old hids hys
    split
    · exact makes_old hids hxs
    · refine makes_list hids fun v hv => ?_
      rcases Rope.mem_stored_append hv with hv | hv
      · exact hxs.stored v hv
      · exact hys.stored v hv
  extract := by
    intro w id xs start stop hids hxs
    unfold Sequence.extract
    dsimp only
    split
    · exact makes_old hids hxs
    split
    · exact makes_old hids (livesIn_empty hids)
    · exact makes_list hids fun v hv => hxs.stored v (Rope.mem_stored_extract hv)
  map hids hd := makes_map hids hd

end Invariant

/-! ## Evaluation -/

/-- All values in frames have the content that the heap gives their identities, and the identities
that are still to be handed out are those it does not have. -/
structure Store.LivesIn (w : Heap) (s : Store Closure) : Prop where
  slots : ∀ f ∈ s.frames, ∀ v ∈ f.slots, v.LivesIn w
  ids : w.Before s.nextId

/-- An outcome whose values live in `w`. -/
def Outcome.LivesIn (w : Heap) : Outcome Cause (Store Closure) Value → Prop
  | .ok v t => v.LivesIn w ∧ t.LivesIn w
  | .fail _ t => t.LivesIn w
  | .exhausted => True

theorem Invariant.Keeps.livesIn {n : Nat} {w : Heap} {s : Store Closure} {x : Eval Value}
    (h : Invariant.coherent.Keeps n w s x Invariant.coherent.value) :
    ∃ w', w.Extends w' ∧ (x s).LivesIn w' := by
  unfold Invariant.Keeps at h
  split at h
  · next hx =>
    obtain ⟨w', hlater, hv⟩ := h
    rw [hx]
    exact ⟨w', hlater.le, hv, hlater.ready.slots, hlater.ready.ids⟩
  · next hx =>
    obtain ⟨w', hlater⟩ := h
    rw [hx]
    exact ⟨w', hlater.le, hlater.ready.slots, hlater.ready.ids⟩
  · next hx =>
    rw [hx]
    exact ⟨w, .refl w, trivial⟩

namespace Store.LivesIn

variable {w : Heap} {s : Store Closure}

theorem ready (h : s.LivesIn w) : Invariant.coherent.Ready 0 w s :=
  ⟨h.slots, h.ids, Nat.zero_le _⟩

/-- In an evaluation an identity is always that of one content. -/
theorem eval (h : s.LivesIn w) (env : Environment) (depth frame : Nat) (e : Expr) :
    ∃ w', w.Extends w' ∧ (e.eval env (Function.invoke env depth) frame s).LivesIn w' :=
  (Invariant.lawful_coherent.eval_keeps (Invariant.lawful_coherent.invoke_keeps env depth) h.ready
    frame e).livesIn

theorem invoke (h : s.LivesIn w) (env : Environment) (depth : Nat) (f : Function)
    {args : List Value} (hargs : ∀ v ∈ args, v.LivesIn w) :
    ∃ w', w.Extends w' ∧ (Function.invoke env depth f args s).LivesIn w' :=
  (Invariant.lawful_coherent.invoke_keeps env depth f args 0 w s h.ready hargs).livesIn

end Store.LivesIn

end Clausal
