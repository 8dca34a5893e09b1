import Clausal.Proofs.Depth
import Clausal.Proofs.Frames

/-!
# Runs that agree

`Agrees x y s` says of a checked run and a run over resolved trees, started from one store, that
they do the same: the same value or error, the same frames and printed text, and lambdas whose
clauses are the resolved ones; no slot is missing. It also says what makes the next pair of runs
agree: frames only grow, and all lambdas fit the frames they captured. It is kept by sequencing
(`Agrees.bind`), by adding a frame (`Agrees.push_bind`), by reading and writing slots that are
there, and by all that a built-in function does.
-/

namespace Clausal

open Run (bind_ok bind_fail bind_exhausted recover_ok recover_fail recover_exhausted)

/-! ## Lambdas that fit -/

/-- The captured frames have room for the names of the label, and every slot that the clauses
refer to is one of these. -/
structure Capture.Fits (s : Store Capture) (c : Capture) : Prop where
  frames : s.fits c.label.scopes (some c.frame) = true
  inScope : Clause.AllScoped c.label.scopes c.clauses

/-- All lambdas of a store fit. -/
def Store.AllFit (s : Store Capture) : Prop := ∀ c ∈ s.closures, c.Fits s

section

variable {s t : Store Capture}

theorem Store.AllFit.mono (hs : s.AllFit) (h : s.Grows t) (hclosures : t.closures = s.closures) :
    t.AllFit := by
  intro c hc
  rw [hclosures] at hc
  exact ⟨Store.fits_mono h (hs c hc).frames, (hs c hc).inScope⟩

theorem Store.AllFit.close (hs : s.AllFit) {c : Capture} (hc : c.Fits s) :
    (s.close c).2.AllFit := by
  have hgrows : s.Grows (s.close c).2 := .of_frames_eq rfl
  intro d hd
  rcases Array.mem_push.mp hd with hd | rfl
  · exact ⟨Store.fits_mono hgrows (hs d hd).frames, (hs d hd).inScope⟩
  · exact ⟨Store.fits_mono hgrows hc.frames, hc.inScope⟩

theorem Store.fits_resolve (s : Store Capture) (scopes : Scopes) (frame : Option Nat) :
    s.resolve.fits scopes frame = s.fits scopes frame := by
  induction scopes generalizing frame with
  | nil => rw [Store.fits_nil, Store.fits_nil]
  | cons names scopes ih =>
    cases frame with
    | none => rfl
    | some frame =>
      simp only [Store.fits, ih]
      rfl

theorem Store.resolve_slot? (s : Store Capture) (frame index depth : Nat) :
    s.resolve.slot? frame index depth = s.slot? frame index depth := by
  have hancestor (depth frame : Nat) : s.resolve.ancestor depth frame = s.ancestor depth frame := by
    induction depth generalizing frame with
    | zero => rfl
    | succ depth ih =>
      simp only [Store.ancestor, Store.resolve]
      split
      · exact ih _
      · rfl
  simp only [Store.slot?, hancestor]
  rfl

end

/-! ## Runs that agree -/

/-- From the store `s`, the checked run `x` misses no slot and does what `y` does from the
resolved store; frames only grow, and all lambdas fit at the end. -/
def Agrees {α : Type} (x : Checked α) (y : Eval α) (s : Store Capture) : Prop :=
  match x s with
  | .ok a t => y s.resolve = .ok a t.resolve ∧ s.Grows t ∧ t.AllFit
  | .fail (.cause c) t => y s.resolve = .fail c t.resolve ∧ s.Grows t ∧ t.AllFit
  | .fail .missing _ => False
  | .exhausted => y s.resolve = .exhausted

namespace Agrees

variable {α β : Type} {x : Checked α} {y : Eval α} {s t : Store Capture}

theorem of_ok {a : α} (hx : x s = .ok a t) (hy : y s.resolve = .ok a t.resolve)
    (hgrows : s.Grows t) (hfit : t.AllFit) : Agrees x y s := by
  rw [Agrees, hx]
  exact ⟨hy, hgrows, hfit⟩

theorem of_fail {c : Cause} (hx : x s = .fail (.cause c) t) (hy : y s.resolve = .fail c t.resolve)
    (hgrows : s.Grows t) (hfit : t.AllFit) : Agrees x y s := by
  rw [Agrees, hx]
  exact ⟨hy, hgrows, hfit⟩

theorem of_exhausted (hx : x s = .exhausted) (hy : y s.resolve = .exhausted) : Agrees x y s := by
  rw [Agrees, hx]
  exact hy

/-- The four ends of a checked run that agrees with another: it is not a missing slot. -/
theorem cases (h : Agrees x y s) :
    (∃ a t, x s = .ok a t ∧ y s.resolve = .ok a t.resolve ∧ s.Grows t ∧ t.AllFit) ∨
    (∃ c t, x s = .fail (.cause c) t ∧ y s.resolve = .fail c t.resolve ∧ s.Grows t ∧ t.AllFit) ∨
    (x s = .exhausted ∧ y s.resolve = .exhausted) := by
  rw [Agrees] at h
  split at h
  · next a t hx => exact .inl ⟨a, t, hx, h⟩
  · next c t hx => exact .inr (.inl ⟨c, t, hx, h⟩)
  · exact h.elim
  · next hx => exact .inr (.inr ⟨hx, h⟩)

theorem bind {f : α → Checked β} {g : α → Eval β} (hxy : Agrees x y s)
    (hfg : ∀ a t, x s = .ok a t → s.Grows t → t.AllFit → Agrees (f a) (g a) t) :
    Agrees (x >>= f) (y >>= g) s := by
  obtain ⟨a, t, hx, hy, hst, hfit⟩ | ⟨c, t, hx, hy, hst, hfit⟩ | ⟨hx, hy⟩ := hxy.cases
  · obtain ⟨b, u, hu, hv, htu, hfit'⟩ | ⟨c, u, hu, hv, htu, hfit'⟩ | ⟨hu, hv⟩ :=
      (hfg a t hx hst hfit).cases
    · exact .of_ok (by rw [bind_ok hx, hu]) (by rw [bind_ok hy, hv]) (hst.trans htu) hfit'
    · exact .of_fail (by rw [bind_ok hx, hu]) (by rw [bind_ok hy, hv]) (hst.trans htu) hfit'
    · exact .of_exhausted (by rw [bind_ok hx, hu]) (by rw [bind_ok hy, hv])
  · exact .of_fail (bind_fail hx) (bind_fail hy) hst hfit
  · exact .of_exhausted (bind_exhausted hx) (bind_exhausted hy)

theorem ret (hs : s.AllFit) (a : α) : Agrees (pure a) (pure a) s := .of_ok rfl rfl (.refl s) hs

theorem raise (hs : s.AllFit) (c : Cause) :
    Agrees (Eval.raise c : Checked α) (Run.fail c : Eval α) s := .of_fail rfl rfl (.refl s) hs

theorem ofExcept (hs : s.AllFit) (r : Except Cause α) :
    Agrees (Eval.ofExcept r) (Run.ofExcept r) s := by
  cases r with
  | ok a => exact .ret hs a
  | error c => exact .raise hs c

theorem read_bind {f : Store Capture → α} {g : Store Closure → β} {γ : Type}
    {k : α → Checked γ} {k' : β → Eval γ} (h : Agrees (k (f s)) (k' (g s.resolve)) s) :
    Agrees (Run.read f >>= k) (Run.read g >>= k') s := h

theorem fresh (hs : s.AllFit) : Agrees Eval.fresh Eval.fresh s :=
  .of_ok (t := s.fresh.2) rfl rfl (.of_frames_eq rfl) (hs.mono (.of_frames_eq rfl) rfl)

theorem print (hs : s.AllFit) (line : String) :
    Agrees (Run.modify (·.printLine line)) (Run.modify (·.printLine line)) s :=
  .of_ok (t := s.printLine line) rfl rfl (.of_frames_eq rfl) (hs.mono (.of_frames_eq rfl) rfl)

theorem catching {f : Cause → Checked α} {g : Cause → Eval α} (hxy : Agrees x y s)
    (hfg : ∀ c t, t.AllFit → Agrees (f c) (g c) t) :
    Agrees (Eval.catching x f) (Eval.catching y g) s := by
  obtain ⟨a, t, hx, hy, hst, hfit⟩ | ⟨c, t, hx, hy, hst, hfit⟩ | ⟨hx, hy⟩ := hxy.cases
  · exact .of_ok (recover_ok hx) (recover_ok hy) hst hfit
  · have hx' : Eval.catching x f s = f c t := recover_fail hx
    have hy' : Eval.catching y g s.resolve = g c t.resolve := recover_fail hy
    obtain ⟨a, u, hu, hv, htu, hfit'⟩ | ⟨c, u, hu, hv, htu, hfit'⟩ | ⟨hu, hv⟩ :=
      (hfg c t hfit).cases
    · exact .of_ok (hx'.trans hu) (hy'.trans hv) (hst.trans htu) hfit'
    · exact .of_fail (hx'.trans hu) (hy'.trans hv) (hst.trans htu) hfit'
    · exact .of_exhausted (hx'.trans hu) (hy'.trans hv)
  · exact .of_exhausted (recover_exhausted hx) (recover_exhausted hy)

theorem allFit (h : Agrees x y s) (ht : (x s).state? = some t) : t.AllFit := by
  obtain ⟨a, u, hx, -, -, hu⟩ | ⟨c, u, hx, -, -, hu⟩ | ⟨hx, -⟩ := h.cases
  · rw [hx] at ht
    cases ht
    exact hu
  · rw [hx] at ht
    cases ht
    exact hu
  · rw [hx] at ht
    cases ht

/-- Where `y` gets, `x` gets. -/
theorem exists_state {r : Store Closure} (h : Agrees x y s) (hr : (y s.resolve).state? = some r) :
    ∃ t, (x s).state? = some t ∧ t.resolve = r := by
  obtain ⟨a, t, hx, hy, -, -⟩ | ⟨c, t, hx, hy, -, -⟩ | ⟨-, hy⟩ := h.cases
  · rw [hy] at hr
    cases hr
    exact ⟨t, by rw [hx]; rfl, rfl⟩
  · rw [hy] at hr
    cases hr
    exact ⟨t, by rw [hx]; rfl, rfl⟩
  · rw [hy] at hr
    cases hr

theorem resolve?_eq (h : Agrees x y s) : (x s).resolve? = some (y s.resolve) := by
  obtain ⟨a, u, hx, hy, -, -⟩ | ⟨c, u, hx, hy, -, -⟩ | ⟨hx, hy⟩ := h.cases
  · rw [hx, hy]
    rfl
  · rw [hx, hy]
    rfl
  · rw [hx, hy]
    rfl

end Agrees

/-! ## Slots -/

section Slots

variable {s : Store Capture} {label : Label} {frame index depth : Nat}

theorem Checked.readSlot_agrees (hs : s.AllFit)
    (hfit : s.fits label.scopes (some frame) = true) (h : label.scopes.InRange index depth) :
    Agrees (Checked.readSlot frame index depth) (Run.read (·.lookup frame index depth)) s := by
  obtain ⟨v, hv⟩ := Store.exists_slot hfit h
  have hread : Checked.readSlot frame index depth s = .ok v s := by rw [Checked.readSlot, hv]
  refine .of_ok hread ?_ (.refl s) hs
  simp only [Run.read, Store.lookup, Store.resolve_slot?, hv, Option.getD_some]

theorem Checked.writeSlot_agrees (hs : s.AllFit) (h : ∃ v, s.slot? frame index 0 = some v)
    (w : Value) : Agrees (Checked.writeSlot frame index w) (Eval.write frame index w) s := by
  obtain ⟨v, hv⟩ := h
  have hwrite : Checked.writeSlot frame index w s = .ok () (s.write frame index w) := by
    rw [Checked.writeSlot, hv]
  exact .of_ok hwrite rfl (s.grows_write frame index w) (hs.mono (s.grows_write frame index w) rfl)

theorem Checked.capture_agrees (hs : s.AllFit) (hfit : s.fits label.scopes (some frame) = true)
    {clauses : List Clause} (h : Clause.AllScoped label.scopes clauses) :
    Agrees (Checked.capture label frame clauses)
      (Eval.close ⟨Clause.resolveAll label.known label.scopes clauses, frame⟩) s := by
  have hclose : Checked.capture label frame clauses s =
      .ok (.function (.lambda s.closures.size)) (s.close ⟨clauses, frame, label⟩).2 := by
    rw [Checked.capture, if_pos hfit]
    rfl
  refine .of_ok hclose ?_ (.of_frames_eq rfl) (hs.close ⟨hfit, h⟩)
  simp only [Eval.close, Run.modifyGet, Store.close, Store.resolve, Array.size_map, Array.map_push]
  rfl

/-- Adding a frame: it has room inside whatever its parent fits. -/
theorem Agrees.push_bind {β : Type} {f : Nat → Checked β} {g : Nat → Eval β} {slots : Array Value}
    {parent : Option Nat} (hs : s.AllFit)
    (h : ∀ inner t, t.AllFit →
      (∀ scopes, s.fits scopes parent = true → t.HasRoom scopes inner slots.size) →
      Agrees (f inner) (g inner) t) :
    Agrees (Eval.push slots parent >>= f) (Eval.push slots parent >>= g) s := by
  have hgrows := s.grows_push slots parent
  obtain ⟨a, t, hx, hy, hst, hfit⟩ | ⟨c, t, hx, hy, hst, hfit⟩ | ⟨hx, hy⟩ :=
    (h s.frames.size _ (hs.mono hgrows rfl) fun _ => Store.hasRoom_push).cases
  · exact .of_ok hx hy (hgrows.trans hst) hfit
  · exact .of_fail hx hy (hgrows.trans hst) hfit
  · exact .of_exhausted hx hy

theorem Checked.fillSlots_agrees {size slot : Nat} {vs : List Value} (hs : s.AllFit)
    (hroom : s.HasRoom label.scopes frame size) (hsize : slot + vs.length ≤ size) :
    Agrees (Checked.fillSlots frame slot vs) (Clausal.fillSlots frame slot vs) s := by
  induction vs generalizing s slot with
  | nil => exact .ret hs ()
  | cons v vs ih =>
    rw [List.length_cons] at hsize
    have hslot : ∃ v, s.slot? frame slot 0 = some v := hroom.exists_slot (by omega)
    refine (Checked.writeSlot_agrees hs hslot v).bind fun _ t _ hst ht => ?_
    exact ih ht (hroom.mono hst) (by omega)

theorem Target.length_values {target : Target} {v : Value} {id : Nat} {vs : List Value}
    (h : target.values v id = .ok vs) : vs.length = target.names.length := by
  cases target with
  | name n =>
    cases h
    rfl
  | items front rest =>
    cases v with
    | list xs =>
      cases h
      simp [Target.names]
    | _ => cases h

theorem Binding.length_le_scope (bound : List String) (bs : List Binding) :
    bound.length ≤ (Binding.scope bound bs).length := by
  induction bs generalizing bound with
  | nil => exact Nat.le_refl _
  | cons b bs ih =>
    have := ih (bound ++ b.target.names)
    rw [List.length_append] at this
    rw [Binding.scope]
    omega

end Slots

/-! ## Calls -/

/-- `i` and `j` call every function alike from every store whose lambdas fit. -/
def Invoke.Agrees (i : Invoke Stop Capture) (j : Invoke Cause Closure) : Prop :=
  ∀ f args s, s.AllFit → Clausal.Agrees (i f args) (j f args) s

section Calls

variable {i : Invoke Stop Capture} {j : Invoke Cause Closure} {s : Store Capture}

theorem Value.call_agrees (h : Invoke.Agrees i j) (hs : s.AllFit) (callee : Value)
    (args : List Value) : Agrees (callee.call i args) (callee.call j args) s := by
  cases callee with
  | function f => exact h f args s hs
  | number n =>
    simp only [Value.call]
    split
    · exact .ret hs _
    · exact .raise hs _
  | _ => exact .raise hs _

theorem collectFrom_agrees {xs : Sequence Value} {f : Value → Checked (Option Value)}
    {g : Value → Eval (Option Value)} (hs : s.AllFit)
    (h : ∀ x t, s.Grows t → t.AllFit → Agrees (f x) (g x) t) (count k : Nat)
    (kept : List Value) :
    Agrees (collectFrom xs f count k kept) (collectFrom xs g count k kept) s := by
  induction count generalizing s k kept with
  | zero => exact .of_ok rfl rfl (.refl s) hs
  | succ count ih =>
    rw [collectFrom_succ, collectFrom_succ]
    refine (h _ s (.refl s) hs).bind fun found t _ hst ht => ?_
    exact ih ht (fun x u htu hu => h x u (hst.trans htu) hu) _ _

theorem collect_agrees {xs : Sequence Value} {f : Value → Checked (Option Value)}
    {g : Value → Eval (Option Value)} (hs : s.AllFit)
    (h : ∀ x t, s.Grows t → t.AllFit → Agrees (f x) (g x) t) :
    Agrees (collect xs f) (collect xs g) s := by
  refine (collectFrom_agrees hs h _ _ _).bind fun kept t _ _ ht => ?_
  exact (Agrees.fresh ht).bind fun id u _ _ hu => .ret hu _

theorem foldValues_agrees (h : Invoke.Agrees i j) (hs : s.AllFit) (f : Function) (acc : Value)
    (xs : List Value) : Agrees (foldValues i f acc xs) (foldValues j f acc xs) s := by
  induction xs generalizing s acc with
  | nil => exact .ret hs acc
  | cons x xs ih => exact (h f [acc, x] s hs).bind fun next t _ _ ht => ih ht next

theorem Native.check_agrees (hs : s.AllFit) (fn : Native) (args : List Value) :
    Agrees (fn.check args) (fn.check args) s := by
  rw [Native.check, Native.check]
  cases Arguments.check fn.name args fn.signature with
  | ok u => exact .ret hs u
  | error c => exact .raise hs c

theorem Native.numeric_agrees (hs : s.AllFit) (fn : Native) (f : Float → Float)
    (args : List Value) : Agrees (fn.numeric f args) (fn.numeric f args) s := by
  refine (fn.check_agrees hs args).bind fun _ t _ _ ht => ?_
  split <;> exact .ret ht _

theorem Native.run_agrees (h : Invoke.Agrees i j) (hs : s.AllFit) (fn : Native)
    (args : List Value) : Agrees (fn.run i args) (fn.run j args) s := by
  cases fn with
  | foldl =>
    simp only [Native.run]
    split
    · exact foldValues_agrees h hs _ _ _
    · refine (Native.check_agrees hs _ _).bind fun _ t _ _ ht => ?_
      split
      · exact foldValues_agrees h ht _ _ _
      · exact .ret ht _
  | map =>
    refine (Native.check_agrees hs _ _).bind fun _ t _ _ ht => ?_
    split
    · refine collect_agrees ht fun x u _ hu => ?_
      exact (h _ _ u hu).bind fun v w _ _ hw => .ret hw _
    · exact .ret ht _
  | filter =>
    refine (Native.check_agrees hs _ _).bind fun _ t _ _ ht => ?_
    split
    · refine collect_agrees ht fun x u _ hu => ?_
      exact (h _ _ u hu).bind fun v w _ _ hw => .ret hw _
    · exact .ret ht _
  | len =>
    simp only [Native.run]
    split
    · exact .ret hs _
    · exact .ret hs _
    · exact .ret hs _
    · exact (Native.check_agrees hs _ _).bind fun _ t _ _ ht => .ret ht _
  | str =>
    refine (Native.check_agrees hs _ _).bind fun _ t _ _ ht => ?_
    split <;> exact .ret ht _
  | print => exact (Agrees.print hs _).bind fun _ t _ _ ht => .ret ht _
  | die =>
    refine (Native.check_agrees hs _ _).bind fun _ t _ _ ht => ?_
    split
    · exact .raise ht _
    · exact .ret ht _
  | «catch» =>
    refine (Native.check_agrees hs _ _).bind fun _ t _ _ ht => ?_
    split
    · exact (h _ _ t ht).catching fun c u hu => h _ _ u hu
    · exact .ret ht _
  | _ => exact Native.numeric_agrees hs _ _ _

end Calls

end Clausal
