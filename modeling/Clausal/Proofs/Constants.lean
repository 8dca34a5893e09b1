import Clausal.Expr.Resolve
import Clausal.Proofs.Captured
import Clausal.Proofs.Matching

/-!
# Constant expressions

An expression that is built from literals by operators, lists and maps alone says by itself what its
value is. There is nothing in it to resolve (`Expr.resolve_of_isConstant`), and to evaluate it takes
nothing of a store but unused identities. So two evaluations, whatever the programs, frames and
stores around them are, run abreast: they hand out as many identities, and they end in the same
error or in values that match but for which identities these are.

* `Store.Pairs s s'`: the identities that are handed out at the same time from `s` on and from `s'`
  on.
* `Outcome.Abreast`: both ends of two runs that have only handed out identities, and as many.
* `Run.Abreast`: the judgement on two runs, with a rule for each primitive; `Expr.eval_abreast` is
  by recursion on the expression.
* `Expr.constants_are_context_free`: all this together.
-/

namespace Clausal

/-! ## Resolving -/

section

variable {isGlobal : String → Bool} {scopes : Scopes}

mutual

/-- There is nothing to resolve in a constant expression. -/
theorem Expr.resolve_of_isConstant :
    (e : Expr) → e.isConstant = true → e.resolve isGlobal scopes = e
  | .literal _, _ => rfl
  | .binary op left right, h => by
    rw [Expr.isConstant, Bool.and_eq_true] at h
    rw [Expr.resolve, left.resolve_of_isConstant h.1, right.resolve_of_isConstant h.2]
  | .unary op operand, h => by rw [Expr.resolve, operand.resolve_of_isConstant h]
  | .list items, h => by rw [Expr.resolve, Expr.resolveAll_of_allConstant items h]
  | .map entries, h => by rw [Expr.resolve, Entry.resolveAll_of_allConstant entries h]

theorem Expr.resolveAll_of_allConstant :
    (es : List Expr) → Expr.allConstant es = true → Expr.resolveAll isGlobal scopes es = es
  | [], _ => rfl
  | e :: es, h => by
    rw [Expr.allConstant, Bool.and_eq_true] at h
    rw [Expr.resolveAll, e.resolve_of_isConstant h.1, Expr.resolveAll_of_allConstant es h.2]

theorem Entry.resolveAll_of_allConstant :
    (es : List Entry) → Entry.allConstant es = true → Entry.resolveAll isGlobal scopes es = es
  | [], _ => rfl
  | ⟨key, value⟩ :: es, h => by
    rw [Entry.allConstant, Bool.and_eq_true] at h
    rw [Entry.resolveAll, value.resolve_of_isConstant h.1, Entry.resolveAll_of_allConstant es h.2]

end

end

/-! ## Two runs -/

namespace Store

/-- The empty list has its identity. -/
def Started (s : Store Closure) : Prop := Sequence.emptyId < s.nextId

/-- So many identities have been handed out, and nothing else is different. -/
def after (s : Store Closure) (count : Nat) : Store Closure :=
  { s with nextId := s.nextId + count }

/-- The identities that are handed out at the same time from the one store on and from the other,
and those of the empty list. -/
def Pairs (s s' : Store Closure) (id id' : Nat) : Prop :=
  id = Sequence.emptyId ∧ id' = Sequence.emptyId ∨
    ∃ count, id = s.nextId + count ∧ id' = s'.nextId + count

variable {s s' : Store Closure}

theorem pairs_empty : s.Pairs s' Sequence.emptyId Sequence.emptyId := .inl ⟨rfl, rfl⟩

theorem Pairs.oneToOne (hs : s.Started) (hs' : s'.Started) (i j k l : Nat) (h : s.Pairs s' i j)
    (h' : s.Pairs s' k l) : i = k ↔ j = l := by
  unfold Started at hs hs'
  obtain ⟨rfl, rfl⟩ | ⟨m, rfl, rfl⟩ := h
  · obtain ⟨rfl, rfl⟩ | ⟨n, rfl, rfl⟩ := h' <;> omega
  · obtain ⟨rfl, rfl⟩ | ⟨n, rfl, rfl⟩ := h' <;> omega

end Store

section

variable (s s' : Store Closure) {α β : Type}

/-- Both have handed out as many identities and have done nothing else to the stores; they end in
related values or in the same error. -/
inductive Outcome.Abreast (R : α → α → Prop) :
    Outcome Cause (Store Closure) α → Outcome Cause (Store Closure) α → Prop
  | ok {a a' : α} (count : Nat) (h : R a a') :
    Outcome.Abreast R (.ok a (s.after count)) (.ok a' (s'.after count))
  | fail (count : Nat) (c : Cause) :
    Outcome.Abreast R (.fail c (s.after count)) (.fail c (s'.after count))

/-- Once as many identities have been handed out, the two runs end abreast. -/
def Run.Abreast (R : α → α → Prop) (x x' : Eval α) : Prop :=
  ∀ count, Outcome.Abreast s s' R (x (s.after count)) (x' (s'.after count))

end

namespace Run.Abreast

variable {s s' : Store Closure} {α β : Type} {R : α → α → Prop} {Q : β → β → Prop}
  {x x' : Eval α}

theorem bind {f f' : α → Eval β} (hx : Abreast s s' R x x')
    (hf : ∀ a a', R a a' → Abreast s s' Q (f a) (f' a')) :
    Abreast s s' Q (x >>= f) (x' >>= f') := by
  intro count
  have hends := hx count
  generalize hrun : x (s.after count) = o at hends
  generalize hrun' : x' (s'.after count) = o' at hends
  cases hends with
  | ok count h =>
    rw [Run.bind_ok hrun, Run.bind_ok hrun']
    exact hf _ _ h count
  | fail count c =>
    rw [Run.bind_fail hrun, Run.bind_fail hrun']
    exact .fail count c

theorem ret {a a' : α} (h : R a a') : Abreast s s' R (pure a) (pure a') :=
  fun count => .ok count h

theorem ofExcept {r r' : Except Cause α} (h : Value.Agree R r r') :
    Abreast s s' R (Run.ofExcept r) (Run.ofExcept r') := by
  intro count
  cases h with
  | ok h => exact .ok count h
  | error c => exact .fail count c

/-- The identities that both hand out are a pair. -/
theorem fresh {f f' : Nat → Eval β}
    (hf : ∀ id id', s.Pairs s' id id' → Abreast s s' Q (f id) (f' id')) :
    Abreast s s' Q (Eval.fresh >>= f) (Eval.fresh >>= f') :=
  fun count => hf _ _ (.inr ⟨count, rfl, rfl⟩) (count + 1)

end Run.Abreast

/-! ## Making lists and maps -/

namespace Value

variable {ρ : Nat → Nat → Prop} {id id' : Nat}

theorem wellFormed_ofList {vs : List Value} (id : Nat) (h : ∀ v ∈ vs, v.WellFormed) :
    Value.WellFormed (.list (.ofList id vs)) := by
  have hmakes : Invariant.wellFormed.Makes () id [.list (.ofList id vs)] :=
    Invariant.lawful_wellFormed.list trivial h
  obtain ⟨_, -, -, hmade⟩ := hmakes
  exact hmade _ (List.mem_singleton_self _)

theorem Matched.ofList {vs vs' : List Value} (hempty : ρ Sequence.emptyId Sequence.emptyId)
    (hid : ρ id id') (h : List.Forall₂ (Matched ρ) vs vs') :
    Matched ρ (.list (.ofList id vs)) (.list (.ofList id' vs')) := by
  have hleft := (List.forall₂_and_left vs vs').mp (h.imp fun _ _ hv => ⟨hv.wellFormed, hv⟩)
  have hflip : List.Forall₂ (flip (Matched ρ)) vs' vs := .flip h
  have hright := (List.forall₂_and_left vs' vs).mp (hflip.imp fun _ _ hv => ⟨hv.wellFormed', hv⟩)
  exact ⟨ofList_matches hempty hid (h.imp fun _ _ hv => hv.same), wellFormed_ofList id hleft.1,
    wellFormed_ofList id' hright.1⟩

/-- The same keys in the same order, with matching values. -/
structure DictMatched (ρ : Nat → Nat → Prop) (d d' : Dict Value) : Prop where
  entries : List.Forall₂ (EntryRel (Matches ρ)) d.entries d'.entries
  wellFormed : Invariant.wellFormed.dict () d
  wellFormed' : Invariant.wellFormed.dict () d'

theorem DictMatched.empty : DictMatched ρ .empty .empty :=
  ⟨.nil, Invariant.lawful_wellFormed.empty, Invariant.lawful_wellFormed.empty⟩

theorem DictMatched.insert {d d' : Dict Value} {v v' : Value} (hd : DictMatched ρ d d')
    (key : UInt64) (hv : Matched ρ v v') : DictMatched ρ (d.insert key v) (d'.insert key v') :=
  ⟨insert_rel hd.entries key hv.same,
    Invariant.lawful_wellFormed.insert key hd.wellFormed hv.wellFormed,
    Invariant.lawful_wellFormed.insert key hd.wellFormed' hv.wellFormed'⟩

theorem DictMatched.map {d d' : Dict Value} (hd : DictMatched ρ d d') (hid : ρ id id') :
    Matched ρ (.map ⟨id, d⟩) (.map ⟨id', d'⟩) :=
  ⟨matches_map_iff.mpr ⟨hid, hd.entries⟩, .map hd.wellFormed.1 hd.wellFormed.2,
    .map hd.wellFormed'.1 hd.wellFormed'.2⟩

end Value

/-! ## Evaluating -/

section

open Value

variable {s s' : Store Closure} {env env' : Environment} {invoke invoke' : Invoke Cause Closure}
  {frame frame' : Nat}

mutual

/-- Two evaluations of a constant expression run abreast. -/
theorem Expr.eval_abreast (hs : s.Started) (hs' : s'.Started) :
    (e : Expr) → e.isConstant = true →
    Run.Abreast s s' (Matched (s.Pairs s')) (e.eval env invoke frame) (e.eval env' invoke' frame')
  | .literal l, _ => .ret (.plain (isPlain_of_isScalar (isScalar_ofLiteral l)))
  | .binary op left right, h => by
    rw [Expr.isConstant, Bool.and_eq_true] at h
    have hleft := left.eval_abreast hs hs' h.1
    have hright := right.eval_abreast hs hs' h.2
    by_cases hand : op = .and
    · subst hand
      refine hleft.bind fun a a' ha => ?_
      rw [← ha.truthy_eq]
      split
      · exact hright
      · exact .ret ha
    by_cases hor : op = .or
    · subst hor
      refine hleft.bind fun a a' ha => ?_
      rw [← ha.truthy_eq]
      split
      · exact .ret ha
      · exact hright
    rw [Expr.eval_binary hand hor, Expr.eval_binary hand hor]
    refine hleft.bind fun a a' ha => hright.bind fun b b' hb => .fresh fun id id' hid => ?_
    have hcompare := (Matched.comparing (Store.Pairs.oneToOne hs hs')).compare_eq ha hb
    exact .ofExcept (ha.apply_matched hb hcompare Store.pairs_empty hid op)
  | .unary op operand, h =>
    (operand.eval_abreast hs hs' h).bind fun a a' ha => .ofExcept (ha.unary_matched op)
  | .list items, h =>
    (Expr.evalAll_abreast hs hs' items h).bind fun _ _ hvs => .fresh fun _ _ hid =>
      .ret (.ofList Store.pairs_empty hid hvs)
  | .map entries, h =>
    (Entry.evalAll_abreast hs hs' entries h .empty).bind fun _ _ hd => .fresh fun _ _ hid =>
      .ret (hd.map hid)

theorem Expr.evalAll_abreast (hs : s.Started) (hs' : s'.Started) :
    (es : List Expr) → Expr.allConstant es = true →
    Run.Abreast s s' (List.Forall₂ (Matched (s.Pairs s'))) (Expr.evalAll env invoke frame es)
      (Expr.evalAll env' invoke' frame' es)
  | [], _ => .ret .nil
  | e :: es, h => by
    rw [Expr.allConstant, Bool.and_eq_true] at h
    refine (e.eval_abreast hs hs' h.1).bind fun v v' hv => ?_
    exact (Expr.evalAll_abreast hs hs' es h.2).bind fun vs vs' hvs => .ret (.cons hv hvs)

theorem Entry.evalAll_abreast (hs : s.Started) (hs' : s'.Started) {d d' : Dict Value} :
    (es : List Entry) → Entry.allConstant es = true → DictMatched (s.Pairs s') d d' →
    Run.Abreast s s' (DictMatched (s.Pairs s')) (Entry.evalAll env invoke frame d es)
      (Entry.evalAll env' invoke' frame' d' es)
  | [], _, hd => .ret hd
  | ⟨key, value⟩ :: es, h, hd => by
    rw [Entry.allConstant, Bool.and_eq_true] at h
    refine (value.eval_abreast hs hs' h.1).bind fun v v' hv => ?_
    exact Entry.evalAll_abreast hs hs' es h.2 (hd.insert _ hv)

end

end

/-! ## Main statement -/

section

variable {s s' t t' : Store Closure} {α : Type} {R Q : α → α → Prop}

theorem Outcome.Abreast.mono {o o' : Outcome Cause (Store Closure) α} (h : Abreast s s' R o o')
    (hRQ : ∀ a a', R a a' → Q a a') : Abreast s s' Q o o' := by
  cases h with
  | ok count h => exact .ok count (hRQ _ _ h)
  | fail count c => exact .fail count c

theorem Outcome.Abreast.rel {a a' : α} (h : Abreast s s' R (.ok a t) (.ok a' t')) : R a a' := by
  cases h
  assumption

/-- The empty list keeps its identity to itself. -/
def Invariant.started : Invariant Unit := .numbered (Sequence.emptyId < ·)

theorem Invariant.lawful_started : Invariant.started.Lawful :=
  Invariant.lawful_numbered fun _ => Nat.lt_succ_of_lt

theorem Store.Started.ready (hs : s.Started) : Invariant.started.Ready 0 () s :=
  ⟨fun _ _ _ _ => trivial, hs, Nat.zero_le _⟩

theorem Invariant.Keeps.started {x : Eval α} {P : Unit → α → Prop}
    (h : Invariant.started.Keeps 0 () s x P) (hrun : (x s).state? = some t) : t.Started := by
  obtain ⟨_, hlater⟩ := h.later hrun
  exact hlater.ready.ids

end

/-- Resolving leaves a constant expression as it is, and any two evaluations of it come to the same:
the same error, or values that match but for the identities of lists and maps. Which program and
which functions there are to call (`env`, `invoke`), which frame and what the store holds is of no
account, and all that the evaluation does to the store is to take identities from it: no frame is
added or written, and nothing is printed. The stores may be any that hand out identities of lists
and maps, so any that other evaluations and calls have gone through. -/
theorem Expr.constants_are_context_free {e : Expr} (h : e.isConstant = true) :
    (∀ (isGlobal : String → Bool) (scopes : Scopes),
      (e.resolve isGlobal scopes).isConstant = true ∧ e.resolve isGlobal scopes = e) ∧
    (∀ (env env' : Environment) (invoke invoke' : Invoke Cause Closure) (frame frame' : Nat)
      (s s' : Store Closure), s.Started → s'.Started →
      Outcome.Abreast s s' (Value.Matches (s.Pairs s')) (e.eval env invoke frame s)
        (e.eval env' invoke' frame' s')) ∧
    (∀ s s' : Store Closure, s.Started → s'.Started → ∀ i j k l : Nat, s.Pairs s' i j →
      s.Pairs s' k l → (i = k ↔ j = l)) ∧
    Store.Started {} ∧
    (∀ (env : Environment) (depth : Nat) (s t : Store Closure), s.Started →
      (∀ (other : Expr) (frame : Nat),
        (other.eval env (Function.invoke env depth) frame s).state? = some t → t.Started) ∧
      (∀ (f : Function) (args : List Value),
        (Function.invoke env depth f args s).state? = some t → t.Started)) := by
  have hI := Invariant.lawful_started
  refine ⟨fun isGlobal scopes => ?_, ?_, ?_, ?_, ?_⟩
  · rw [e.resolve_of_isConstant h]
    exact ⟨h, rfl⟩
  · intro env env' invoke invoke' frame frame' s s' hs hs'
    have hends : Outcome.Abreast s s' (Value.Matched (s.Pairs s')) (e.eval env invoke frame s)
        (e.eval env' invoke' frame' s') := e.eval_abreast hs hs' h 0
    exact hends.mono fun _ _ hv => hv.same
  · exact fun s s' hs hs' => Store.Pairs.oneToOne hs hs'
  · exact Nat.zero_lt_one
  · intro env depth s t hs
    have hcalls := hI.invoke_keeps env depth
    refine ⟨fun other frame hrun => ?_, fun f args hrun => ?_⟩
    · exact (hI.eval_keeps hcalls hs.ready frame other).started hrun
    · exact (hcalls f args 0 () s hs.ready fun _ _ => trivial).started hrun

/-- `{a: [] == [], a: [true] + [[]]}`, at the start, and with other functions, in a frame that does
not exist, where some text has been printed and some identities are used up: the map has the
identity 8 the first time and 16 the second. -/
theorem Expr.constants_are_context_free_repeated :
    let empty : Expr := .list []
    let joined : Expr := .binary .add (.list [.literal (.bool true)]) (.list [empty])
    let e : Expr := .map [⟨"a", .binary .equal empty empty⟩, ⟨"a", joined⟩]
    let later : Store Closure := { frames := #[⟨#[.bool true], none⟩], nextId := 9, printed := "x" }
    e.isConstant = true ∧ later.Started ∧ ∃ content content' : Dict Value,
      e.eval {} (Function.invoke {} 0) 0 {} = .ok (.map ⟨8, content⟩) (Store.after {} 8) ∧
      e.eval .empty (Function.invoke .empty 7) 3 later = .ok (.map ⟨16, content'⟩) (later.after 8) ∧
      Value.Matches (Store.Pairs {} later) (.map ⟨8, content⟩) (.map ⟨16, content'⟩) ∧
      content.size = 1 := by
  intro empty joined e later
  have hconstant : e.isConstant = true := rfl
  have hlater : later.Started := Nat.succ_pos 8
  obtain ⟨-, hsame, -, hstart, -⟩ := Expr.constants_are_context_free hconstant
  have hrun : e.eval {} (Function.invoke {} 0) 0 {} = .ok (.map ⟨8, _⟩) (Store.after {} 8) := rfl
  have hrun' : e.eval .empty (Function.invoke .empty 7) 3 later =
      .ok (.map ⟨16, _⟩) (later.after 8) := rfl
  have hends := hsame {} .empty (Function.invoke {} 0) (Function.invoke .empty 7) 0 3 {} later
    hstart hlater
  rw [hrun, hrun'] at hends
  exact ⟨hconstant, hlater, _, _, hrun, hrun', hends.rel, by decide +kernel⟩

end Clausal
