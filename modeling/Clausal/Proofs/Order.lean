import Clausal.Proofs.Captured
import Clausal.Proofs.Globals
import Clausal.Proofs.Holding

/-!
# Lambdas in order

A lambda keeps the frame it is made in, and sees that frame and those around it (`Store.Sees`). When
the frames and the lambdas of a store are in order, and that every single step of an evaluation
leaves them so.

* `Setting`: a table of functions, a later table, and whether lambdas are kept out of the values
  that `with` blocks bind (`Expr.tame`).
* `Setting.Orderly`: every function in a slot is there; clauses refer to functions that are there;
  frames are inside older ones. If lambdas are kept out of bound values, then moreover all that a
  lambda sees holds only lambdas made before it, and no lambda sees a frame that is being filled.
* `Setting.Stays`: the judgement on two runs from one store. They end alike, and leave the store
  orderly; there is one rule for each step. Writing is the one that needs a reason
  (`Setting.Stays.write`): a lambda that sees the frame must be younger than what is written.
-/

namespace Clausal

/-! ## Lambdas in bound values -/

mutual

/-- Whether no lambda is written in a value that a `with` block binds. With `bound`, the expression
itself stands in such a value. -/
def Expr.tame (bound : Bool) : Expr → Bool
  | .literal _ | .symbol .. => true
  | .binary _ left right => left.tame bound && right.tame bound
  | .unary _ operand => operand.tame bound
  | .call callee args => callee.tame bound && Expr.tameAll bound args
  | .list items => Expr.tameAll bound items
  | .map entries => Entry.tameAll bound entries
  | .comprehension _ source filter map =>
    source.tame bound && (Expr.tameOption bound filter && Expr.tameOption bound map)
  | .withBlock bindings body => Binding.tameAll bindings && body.tame bound
  | .lambda clauses => !bound && Clause.tameAll clauses

/-- Whether all of some expressions are tame. -/
def Expr.tameAll (bound : Bool) : List Expr → Bool
  | [] => true
  | e :: es => e.tame bound && Expr.tameAll bound es

/-- Whether an expression is tame, if there is one. -/
def Expr.tameOption (bound : Bool) : Option Expr → Bool
  | none => true
  | some e => e.tame bound

/-- Whether the values of entries are tame. -/
def Entry.tameAll (bound : Bool) : List Entry → Bool
  | [] => true
  | ⟨_, value⟩ :: es => value.tame bound && Entry.tameAll bound es

/-- Whether the values of bindings are tame. -/
def Binding.tameAll : List Binding → Bool
  | [] => true
  | ⟨_, value⟩ :: bs => value.tame true && Binding.tameAll bs

/-- Whether the guards of parameters are tame. -/
def Param.tameAll : List Param → Bool
  | [] => true
  | ⟨_, guard⟩ :: ps => Expr.tameOption false guard && Param.tameAll ps

/-- Whether the guards and the body of a clause are tame. -/
def Clause.tame : Clause → Bool
  | ⟨params, body⟩ => Param.tameAll params && body.tame false

/-- Whether some clauses are tame. -/
def Clause.tameAll : List Clause → Bool
  | [] => true
  | c :: cs => c.tame && Clause.tameAll cs

end

/-! ## Frames that are seen -/

namespace Store

variable {κ : Type} {s t u : Store κ} {frame up : Nat}

/-- From inside the frame, the slots of the frame `up` are seen: it is the frame itself or one of
those around it. -/
inductive Sees (s : Store κ) (frame : Nat) : Nat → Prop
  | self : Sees s frame frame
  | parent {i p : Nat} {f : Frame} (h : Sees s frame i) (hf : s.frames[i]? = some f)
      (hp : f.parent = some p) : Sees s frame p

/-- Every frame is inside an older one, or inside none. -/
def Rooted (s : Store κ) : Prop :=
  ∀ (i p : Nat) (f : Frame), s.frames[i]? = some f → f.parent = some p → p < i

theorem Sees.le (h : s.Sees frame up) (hs : s.Rooted) : up ≤ frame := by
  induction h with
  | self => exact Nat.le_refl frame
  | @parent i p f _ hf hp ih =>
    have := hs i p f hf hp
    omega

/-- What is seen from a frame that was there is what was seen before. -/
theorem Sees.of_grows (h : t.Sees frame up) (hst : s.Grows t) (hs : s.Rooted)
    (hframe : frame < s.frames.size) : s.Sees frame up := by
  induction h with
  | self => exact .self
  | @parent i p g _ hg hp ih =>
    have hi : i < s.frames.size := Nat.lt_of_le_of_lt (ih.le hs) hframe
    obtain ⟨g', hg', -, hparent⟩ := hst i s.frames[i] (Array.getElem?_eq_getElem hi)
    rw [hg] at hg'
    cases hg'
    exact ih.parent (Array.getElem?_eq_getElem hi) (hparent.symm.trans hp)

/-- From a frame inside another, what is seen is the frame or is seen from the other. -/
theorem Sees.of_parent {f : Frame} (h : s.Sees frame up) (hf : s.frames[frame]? = some f) :
    up = frame ∨ ∃ p, f.parent = some p ∧ s.Sees p up := by
  induction h with
  | self => exact .inl rfl
  | @parent i p g _ hg hp ih =>
    refine .inr ?_
    rcases ih with rfl | ⟨q, hq, hsees⟩
    · rw [hf] at hg
      cases hg
      exact ⟨p, hp, .self⟩
    · exact ⟨q, hq, hsees.parent hg hp⟩

theorem Sees.trans {i j k : Nat} (h : s.Sees i j) (h' : s.Sees j k) : s.Sees i k := by
  induction h' with
  | self => exact h
  | parent _ hf hp ih => exact ih.parent hf hp

theorem ancestor_succ {depth i p : Nat} {f : Frame} (h : s.ancestor depth frame = some i)
    (hf : s.frames[i]? = some f) (hp : f.parent = some p) :
    s.ancestor (depth + 1) frame = some p := by
  induction depth generalizing frame with
  | zero =>
    cases h
    obtain ⟨slots, parent⟩ := f
    cases hp
    rw [ancestor, hf]
    rfl
  | succ depth ih =>
    rw [ancestor] at h ⊢
    split at h
    · exact ih h
    · cases h

/-- The frames that are seen are those that slots are read from. -/
theorem sees_iff_ancestor : s.Sees frame up ↔ ∃ depth, s.ancestor depth frame = some up := by
  constructor
  · intro h
    induction h with
    | self => exact ⟨0, rfl⟩
    | parent _ hf hp ih =>
      obtain ⟨depth, hdepth⟩ := ih
      exact ⟨depth + 1, ancestor_succ hdepth hf hp⟩
  · rintro ⟨depth, h⟩
    induction depth generalizing frame with
    | zero =>
      cases h
      exact .self
    | succ depth ih =>
      rw [ancestor] at h
      split at h
      · next hf => exact Sees.trans (.parent .self hf rfl) (ih h)
      · cases h

/-- `t` comes after `s`: it has all frames, up to what is in their slots, and all closures. -/
structure Onward (s t : Store κ) : Prop where
  grows : s.Grows t
  closures : ∀ (id : Nat) (c : κ), s.closures[id]? = some c → t.closures[id]? = some c

theorem Onward.refl (s : Store κ) : s.Onward s := ⟨.refl s, fun _ _ h => h⟩

theorem Onward.trans (h : s.Onward t) (h' : t.Onward u) : s.Onward u :=
  ⟨h.grows.trans h'.grows, fun id c hc => h'.closures id c (h.closures id c hc)⟩

theorem Onward.of_eq (hframes : t.frames = s.frames) (hclosures : t.closures = s.closures) :
    s.Onward t :=
  ⟨.of_frames_eq hframes, fun _ _ h => by rw [hclosures]; exact h⟩

theorem Onward.frames_le (h : s.Onward t) : s.frames.size ≤ t.frames.size := by
  refine Nat.le_of_not_lt fun hlt => ?_
  obtain ⟨g, hg, -⟩ := h.grows _ _ (Array.getElem?_eq_getElem hlt)
  obtain ⟨hlt', -⟩ := Array.getElem?_eq_some_iff.mp hg
  omega

theorem Onward.closures_le (h : s.Onward t) : s.closures.size ≤ t.closures.size := by
  refine Nat.le_of_not_lt fun hlt => ?_
  have hc := h.closures _ _ (Array.getElem?_eq_getElem hlt)
  obtain ⟨hlt', -⟩ := Array.getElem?_eq_some_iff.mp hc
  omega

/-! ## Single steps -/

theorem frame_of_push {slots : Array Value} {parent : Option Nat} {i : Nat} {f : Frame}
    (h : (s.push slots parent).2.frames[i]? = some f) :
    s.frames[i]? = some f ∨ i = s.frames.size ∧ f = ⟨slots, parent⟩ := by
  rw [frames_push, Array.getElem?_push] at h
  split at h
  · next hi =>
    cases h
    exact .inr ⟨hi, rfl⟩
  · exact .inl h

theorem Rooted.push (h : s.Rooted) (slots : Array Value) {parent : Option Nat}
    (hparent : ∀ p, parent = some p → p < s.frames.size) : (s.push slots parent).2.Rooted := by
  intro i p f hf hp
  rcases frame_of_push hf with hf | ⟨rfl, rfl⟩
  · exact h i p f hf hp
  · exact hparent p hp

/-- What is in a slot after writing was in the frame before, or has been written. -/
theorem mem_slots_of_write {index i : Nat} {v x : Value} {f : Frame}
    (hf : (s.write frame index v).frames[i]? = some f) (hx : x ∈ f.slots) :
    (∃ f', s.frames[i]? = some f' ∧ x ∈ f'.slots) ∨ i = frame ∧ x = v := by
  rw [frames_write, Array.getElem?_modify] at hf
  split at hf
  · next hi =>
    obtain ⟨old, hold, rfl⟩ := Option.map_eq_some_iff.mp hf
    rcases Array.mem_or_eq_of_mem_setIfInBounds hx with hx | rfl
    · exact .inl ⟨old, hold, hx⟩
    · exact .inr ⟨hi.symm, rfl⟩
  · exact .inl ⟨f, hf, hx⟩

theorem Rooted.write (h : s.Rooted) (frame index : Nat) (v : Value) :
    (s.write frame index v).Rooted := by
  intro i p f hf hp
  obtain ⟨hlt, -⟩ := Array.getElem?_eq_some_iff.mp hf
  have hi : i < s.frames.size := by simpa [Store.write] using hlt
  obtain ⟨f', hf', -, hparent⟩ := s.grows_write frame index v i _ (Array.getElem?_eq_getElem hi)
  rw [hf] at hf'
  cases hf'
  exact h i p _ (Array.getElem?_eq_getElem hi) (hparent.symm.trans hp)

theorem closure_of_close {c d : κ} {id : Nat} (h : (s.close c).2.closures[id]? = some d) :
    s.closures[id]? = some d ∨ id = s.closures.size ∧ d = c := by
  rw [close, Array.getElem?_push] at h
  split at h
  · next hid =>
    cases h
    exact .inr ⟨hid, rfl⟩
  · exact .inl h

theorem onward_close (s : Store κ) (c : κ) : s.Onward (s.close c).2 := by
  refine ⟨.of_frames_eq rfl, fun id d hd => ?_⟩
  obtain ⟨hlt, -⟩ := Array.getElem?_eq_some_iff.mp hd
  rw [close, Array.getElem?_push_lt hlt, ← hd, Array.getElem?_eq_getElem hlt]

theorem Sees.of_frames_eq (h : t.Sees frame up) (hframes : t.frames = s.frames) :
    s.Sees frame up := by
  induction h with
  | self => exact .self
  | parent _ hf hp ih => exact ih.parent (hframes ▸ hf) hp

end Store

/-! ## Orderly stores -/

/-- The function is one of the table, or one of `n` lambdas. -/
def Function.There (env : Environment) (n : Nat) : Function → Prop
  | .native .. => True
  | .declared _ slot => slot < env.definitions.length
  | .lambda id => id < n

theorem Function.There.mono {env env' : Environment} {m n : Nat} {f : Function}
    (h : f.There env m) (henv : env.definitions.length ≤ env'.definitions.length) (hmn : m ≤ n) :
    f.There env' n := by
  cases f with
  | native fn slot => trivial
  | declared name slot => exact Nat.lt_of_lt_of_le h henv
  | lambda id => exact Nat.lt_of_lt_of_le h hmn

/-- Under what circumstances an evaluation takes place. -/
structure Setting where
  /-- The functions that the evaluation may come across. -/
  env : Environment
  /-- The functions of a second evaluation. -/
  later : Environment
  /-- No lambda is written in a value that a `with` block binds. -/
  tidy : Prop

namespace Setting

variable (R : Setting)

/-- All functions in a value are there. -/
def Known (n : Nat) (v : Value) : Prop := v.Only (Function.There R.env n)

/-- All functions in some values are there. -/
def AllKnown (n : Nat) (vs : List Value) : Prop := ∀ v ∈ vs, R.Known n v

/-- A piece of a program may be come across: the names it refers to are known, and it is tame if
that is asked for. -/
structure Allows (names : List String) (tame : Bool) : Prop where
  known : ∀ n ∈ names, R.env.contains n = true
  tame : R.tidy → tame = true

/-- No lambda sees the slots of the frame. -/
def Unseen (s : Store Closure) (frame : Nat) : Prop := ∀ c ∈ s.closures, ¬ s.Sees c.frame frame

/-- A store in order, while some frames are being filled. -/
structure Orderly (filling : List Nat) (s : Store Closure) : Prop where
  known : ∀ f ∈ s.frames, ∀ v ∈ f.slots, R.Known s.closures.size v
  rooted : s.Rooted
  captured : ∀ c ∈ s.closures, c.frame < s.frames.size
  allowed : ∀ c ∈ s.closures, R.Allows (Clause.globalsAll c.clauses) (Clause.tameAll c.clauses)
  /-- All that a lambda sees was made before it. -/
  ordered : R.tidy → ∀ (id : Nat) (c : Closure), s.closures[id]? = some c →
    ∀ (up : Nat) (f : Frame), s.Sees c.frame up → s.frames[up]? = some f →
      ∀ v ∈ f.slots, R.Known id v
  hidden : R.tidy → ∀ i ∈ filling, i < s.frames.size ∧ Unseen s i

/-- A store in order, and a frame to evaluate in. Where lambdas may be made, no frame that is being
filled is seen. -/
structure Ready (filling : List Nat) (bound : Bool) (s : Store Closure) (frame : Nat) : Prop
    extends R.Orderly filling s where
  inside : frame < s.frames.size
  clear : R.tidy → bound = false → ∀ i ∈ filling, ¬ s.Sees frame i

/-- A later store in order. -/
structure Later (filling : List Nat) (s t : Store Closure) : Prop where
  onward : s.Onward t
  orderly : R.Orderly filling t

/-- The runs `x` and `y` from `s` end alike. They lead to a later store in order, and to a result
with the property `P`, which is about what is known when there are so many lambdas. -/
def Stays {α : Type} (filling : List Nat) (s : Store Closure) (x y : Eval α)
    (P : Nat → α → Prop) : Prop :=
  y s = x s ∧
    match x s with
    | .ok a t => R.Later filling s t ∧ P t.closures.size a
    | .fail _ t => R.Later filling s t
    | .exhausted => True

section

variable {R} {α β : Type} {filling : List Nat} {bound : Bool} {s t u : Store Closure}
  {frame m n : Nat} {v : Value}

theorem Known.mono (h : R.Known m v) (hmn : m ≤ n) : R.Known n v :=
  Value.Only.mono h fun _ hf => hf.mono (Nat.le_refl _) hmn

theorem known_scalar (h : v.isScalar = true) : R.Known n v := Value.only_of_isScalar h

theorem allKnown_singleton : R.AllKnown n [v] ↔ R.Known n v := by
  simp [AllKnown]

theorem allows_nil : R.Allows [] true := ⟨List.forall_mem_nil _, fun _ => rfl⟩

/-- The parts of a piece of a program are allowed if it is. -/
theorem allows_append {as bs : List String} {a b : Bool} :
    R.Allows (as ++ bs) (a && b) ↔ R.Allows as a ∧ R.Allows bs b := by
  constructor
  · intro h
    have htame (htidy : R.tidy) := (Bool.and_eq_true _ _).mp (h.tame htidy)
    exact ⟨⟨fun n hn => h.known n (List.mem_append_left _ hn), fun htidy => (htame htidy).1⟩,
      ⟨fun n hn => h.known n (List.mem_append_right _ hn), fun htidy => (htame htidy).2⟩⟩
  · rintro ⟨ha, hb⟩
    refine ⟨fun n hn => ?_, fun htidy => (Bool.and_eq_true _ _).mpr ⟨ha.tame htidy, hb.tame htidy⟩⟩
    exact (List.mem_append.mp hn).elim (ha.known n) (hb.known n)

theorem Allows.clauses {cs : List Clause}
    (h : R.Allows (Clause.globalsAll cs) (Clause.tameAll cs)) :
    ∀ c ∈ cs, R.Allows c.globals c.tame := by
  induction cs with
  | nil => exact List.forall_mem_nil _
  | cons c cs ih =>
    obtain ⟨hc, hcs⟩ := allows_append.mp h
    exact List.forall_mem_cons.mpr ⟨hc, ih hcs⟩

theorem Allows.guards {c : Clause} (h : R.Allows c.globals c.tame) :
    ∀ g ∈ c.guards, R.Allows g.globals (g.tame false) := by
  obtain ⟨params, body⟩ := c
  obtain ⟨hparams, -⟩ := allows_append.mp h
  rw [Clause.guards]
  induction params with
  | nil => exact List.forall_mem_nil _
  | cons p ps ih =>
    obtain ⟨name, guard⟩ := p
    obtain ⟨hguard, hps⟩ := allows_append.mp hparams
    have hrest := ih (allows_append.mpr ⟨hps, (allows_append.mp h).2⟩) hps
    cases guard with
    | none => exact hrest
    | some g => exact List.forall_mem_cons.mpr ⟨hguard, hrest⟩

theorem Allows.body {c : Clause} (h : R.Allows c.globals c.tame) :
    R.Allows c.body.globals (c.body.tame false) := by
  obtain ⟨params, body⟩ := c
  exact (allows_append.mp h).2

/-! ## Later stores -/

theorem Orderly.tail {i : Nat} (h : R.Orderly (i :: filling) s) : R.Orderly filling s :=
  { h with hidden := fun htidy j hj => h.hidden htidy j (List.mem_cons_of_mem _ hj) }

theorem Orderly.cons {i : Nat} (h : R.Orderly filling s) (hi : i < s.frames.size)
    (hunseen : Unseen s i) : R.Orderly (i :: filling) s :=
  { h with hidden := fun htidy => List.forall_mem_cons.mpr ⟨⟨hi, hunseen⟩, h.hidden htidy⟩ }

theorem Later.refl (hs : R.Orderly filling s) : R.Later filling s s := ⟨.refl s, hs⟩

/-- A store with the same frames and closures. -/
theorem Later.of_eq (hs : R.Orderly filling s) (hframes : t.frames = s.frames)
    (hclosures : t.closures = s.closures) : R.Later filling s t := by
  refine ⟨.of_eq hframes hclosures, ?_⟩
  constructor
  · rw [hframes, hclosures]
    exact hs.known
  · exact fun i p f hf hp => hs.rooted i p f (hframes ▸ hf) hp
  · rw [hframes, hclosures]
    exact hs.captured
  · rw [hclosures]
    exact hs.allowed
  · intro htidy id c hc up f hup hf
    exact hs.ordered htidy id c (hclosures ▸ hc) up f (hup.of_frames_eq hframes) (hframes ▸ hf)
  · intro htidy i hi
    obtain ⟨hlt, hunseen⟩ := hs.hidden htidy i hi
    refine ⟨hframes ▸ hlt, fun c hc hup => ?_⟩
    exact hunseen c (hclosures ▸ hc) (hup.of_frames_eq hframes)

theorem Later.trans (h : R.Later filling s t) (h' : R.Later filling t u) : R.Later filling s u :=
  ⟨h.onward.trans h'.onward, h'.orderly⟩

theorem Later.known (h : R.Later filling s t) (hv : R.Known s.closures.size v) :
    R.Known t.closures.size v :=
  hv.mono h.onward.closures_le

theorem Later.there (h : R.Later filling s t) {f : Function}
    (hf : f.There R.env s.closures.size) : f.There R.env t.closures.size :=
  hf.mono (Nat.le_refl _) h.onward.closures_le

theorem Later.allKnown (h : R.Later filling s t) {vs : List Value}
    (hvs : R.AllKnown s.closures.size vs) : R.AllKnown t.closures.size vs :=
  fun v hv => h.known (hvs v hv)

theorem Ready.later (h : R.Ready filling bound s frame) (hlater : R.Later filling s t) :
    R.Ready filling bound t frame where
  toOrderly := hlater.orderly
  inside := Nat.lt_of_lt_of_le h.inside hlater.onward.frames_le
  clear htidy hbound i hi hsees :=
    h.clear htidy hbound i hi (hsees.of_grows hlater.onward.grows h.rooted h.inside)

/-- A lambda that was there sees what it saw. -/
theorem Orderly.sees (hs : R.Orderly filling s) (hst : s.Grows t) {c : Closure} {up : Nat}
    (hc : c ∈ s.closures) (h : t.Sees c.frame up) : s.Sees c.frame up :=
  h.of_grows hst hs.rooted (hs.captured c hc)

theorem Later.unseen (h : R.Later filling s t) (hs : R.Orderly filling s) (hunseen : Unseen s frame)
    {id : Nat} {c : Closure} (hid : id < s.closures.size) (hc : t.closures[id]? = some c) :
    ¬ t.Sees c.frame frame := by
  have hold := Array.getElem?_eq_getElem hid
  rw [h.onward.closures _ _ hold] at hc
  cases hc
  have hmem : s.closures[id] ∈ s.closures := Array.getElem_mem hid
  exact fun hsees => hunseen _ hmem (hs.sees h.onward.grows hmem hsees)

theorem Orderly.unseen_push (hs : R.Orderly filling s) (slots : Array Value)
    (parent : Option Nat) : Unseen (s.push slots parent).2 s.frames.size := by
  intro c hc h
  have hlt := hs.captured c hc
  have hle := (hs.sees (s.grows_push slots parent) hc h).le hs.rooted
  omega

theorem Orderly.push (hs : R.Orderly filling s) {slots : Array Value} {parent : Option Nat}
    (hslots : ∀ v ∈ slots, R.Known s.closures.size v)
    (hparent : ∀ p, parent = some p → p < s.frames.size) :
    R.Orderly filling (s.push slots parent).2 := by
  have hgrows := s.grows_push slots parent
  have hsize : (s.push slots parent).2.frames.size = s.frames.size + 1 := Array.size_push _
  refine ⟨fun f hf => ?_, hs.rooted.push slots hparent, fun c hc => ?_, hs.allowed, ?_, ?_⟩
  · rcases Array.mem_push.mp hf with hf | rfl
    · exact hs.known f hf
    · exact hslots
  · have hlt := hs.captured c hc
    omega
  · intro htidy id c hc up f hup hf
    have hmem := Array.mem_of_getElem? hc
    rcases Store.frame_of_push hf with hf | ⟨rfl, rfl⟩
    · exact hs.ordered htidy id c hc up f (hs.sees hgrows hmem hup) hf
    · exact absurd hup (hs.unseen_push slots parent c hmem)
  · intro htidy i hi
    obtain ⟨hlt, hunseen⟩ := hs.hidden htidy i hi
    exact ⟨by omega, fun c hc hup => hunseen c hc (hs.sees hgrows hc hup)⟩

/-- A new frame is as good to evaluate in as the one around it. -/
theorem Orderly.ready_push (hs : R.Orderly filling s) {slots : Array Value} {parent : Option Nat}
    (hslots : ∀ v ∈ slots, R.Known s.closures.size v)
    (hparent : ∀ p, parent = some p → R.Ready filling bound s p) :
    R.Ready filling bound (s.push slots parent).2 s.frames.size where
  toOrderly := hs.push hslots fun p hp => (hparent p hp).inside
  inside := by simp only [Store.push, Array.size_push, Nat.lt_add_one]
  clear htidy hbound i hi hup := by
    have hnew : (s.push slots parent).2.frames[s.frames.size]? = some ⟨slots, parent⟩ :=
      Array.getElem?_push_size
    rcases hup.of_parent hnew with rfl | ⟨p, hp, hup⟩
    · -- the frames that are being filled are there already
      exact Nat.lt_irrefl _ (hs.hidden htidy _ hi).1
    · have hready := hparent p hp
      exact hready.clear htidy hbound i hi
        (hup.of_grows (s.grows_push slots parent) hs.rooted hready.inside)

/-- A lambda that sees a slot must be younger than what is written to it. -/
theorem Orderly.write (hs : R.Orderly filling s) (index : Nat) (hv : R.Known s.closures.size v)
    (hseen : R.tidy → ∀ (id : Nat) (c : Closure), s.closures[id]? = some c →
      s.Sees c.frame frame → R.Known id v) : R.Orderly filling (s.write frame index v) := by
  have hgrows := s.grows_write frame index v
  have hsize : (s.write frame index v).frames.size = s.frames.size := Array.size_modify
  refine ⟨fun f hf x hx => ?_, hs.rooted.write frame index v, fun c hc => ?_, hs.allowed, ?_, ?_⟩
  · obtain ⟨i, hi⟩ := Array.getElem?_of_mem hf
    obtain ⟨f', hf', hx⟩ | ⟨-, rfl⟩ := Store.mem_slots_of_write hi hx
    · exact hs.known f' (Array.mem_of_getElem? hf') x hx
    · exact hv
  · exact hsize ▸ hs.captured c hc
  · intro htidy id c hc up f hup hf x hx
    have hsees := hs.sees hgrows (Array.mem_of_getElem? hc) hup
    obtain ⟨f', hf', hx⟩ | ⟨rfl, rfl⟩ := Store.mem_slots_of_write hf hx
    · exact hs.ordered htidy id c hc up f' hsees hf' x hx
    · exact hseen htidy id c hc hsees
  · intro htidy i hi
    obtain ⟨hlt, hunseen⟩ := hs.hidden htidy i hi
    exact ⟨hsize ▸ hlt, fun c hc hup => hunseen c hc (hs.sees hgrows hc hup)⟩

/-- A lambda may be made where no frame that is being filled is seen. It is younger than all there
is. -/
theorem Ready.close (h : R.Ready filling bound s frame) {clauses : List Clause}
    (hallowed : R.Allows (Clause.globalsAll clauses) (!bound && Clause.tameAll clauses)) :
    R.Orderly filling (s.close ⟨clauses, frame⟩).2 := by
  have htame (htidy : R.tidy) : bound = false ∧ Clause.tameAll clauses = true := by
    simpa using hallowed.tame htidy
  refine ⟨fun f hf x hx => ?_, h.rooted, fun d hd => ?_, fun d hd => ?_, ?_, ?_⟩
  · exact (h.known f hf x hx).mono (s.onward_close _).closures_le
  · rcases Array.mem_push.mp hd with hd | rfl
    · exact h.captured d hd
    · exact h.inside
  · rcases Array.mem_push.mp hd with hd | rfl
    · exact h.allowed d hd
    · exact ⟨hallowed.known, fun htidy => (htame htidy).2⟩
  · intro htidy id d hd up f hup hf x hx
    obtain hd | ⟨rfl, rfl⟩ := Store.closure_of_close hd
    · exact h.ordered htidy id d hd up f (hup.of_frames_eq rfl) hf x hx
    · exact h.known f (Array.mem_of_getElem? hf) x hx
  · intro htidy i hi
    obtain ⟨hlt, hunseen⟩ := h.hidden htidy i hi
    refine ⟨hlt, fun d hd hup => ?_⟩
    rcases Array.mem_push.mp hd with hd | rfl
    · exact hunseen d hd (hup.of_frames_eq rfl)
    · exact h.clear htidy (htame htidy).1 i hi (hup.of_frames_eq rfl)

theorem Orderly.known_lookup (hs : R.Orderly filling s) (frame index depth : Nat) :
    R.Known s.closures.size (s.lookup frame index depth) := by
  unfold Store.lookup
  cases hslot : s.slot? frame index depth with
  | none => exact known_scalar rfl
  | some v =>
    simp only [Store.slot?, Option.bind_eq_bind, Option.bind_eq_some_iff] at hslot
    obtain ⟨up, -, f, hf, hv⟩ := hslot
    exact hs.known f (Array.mem_of_getElem? hf) v (Array.mem_of_getElem? hv)

/-! ## Rules -/

namespace Stays

variable {x y : Eval α} {P : Nat → α → Prop} {Q : Nat → β → Prop}

/-- The store that a run ends in, be it in a value or in an error, is a later one. -/
theorem later (h : R.Stays filling s x y P) (hrun : (x s).state? = some t) :
    R.Later filling s t := by
  obtain ⟨-, hend⟩ := h
  split at hend
  · next hx =>
    rw [hx] at hrun
    cases hrun
    exact hend.1
  · next hx =>
    rw [hx] at hrun
    cases hrun
    exact hend
  · next hx =>
    rw [hx] at hrun
    cases hrun

/-- A result has the property. -/
theorem result (h : R.Stays filling s x y P) {a : α} (hrun : x s = .ok a t) :
    P t.closures.size a := by
  obtain ⟨-, hend⟩ := h
  rw [hrun] at hend
  exact hend.2

/-- Runs that go on from a later store. -/
theorem after {x' y' : Eval α} (h : R.Later filling s t) (hxy : R.Stays filling t x y P)
    (hx : x' s = x t) (hy : y' s = y t) : R.Stays filling s x' y' P := by
  obtain ⟨heq, hend⟩ := hxy
  refine ⟨by rw [hx, hy, heq], ?_⟩
  rw [hx]
  split at hend
  · exact ⟨h.trans hend.1, hend.2⟩
  · exact h.trans hend
  · trivial

theorem bind {f g : α → Eval β} (hxy : R.Stays filling s x y P)
    (hfg : ∀ a t, R.Later filling s t → P t.closures.size a →
      R.Stays filling t (f a) (g a) Q) :
    R.Stays filling s (x >>= f) (y >>= g) Q := by
  obtain ⟨heq, hend⟩ := hxy
  split at hend
  · next a t hx =>
    exact after hend.1 (hfg a t hend.1 hend.2) (Run.bind_ok hx) (Run.bind_ok (heq.trans hx))
  · next c t hx =>
    refine ⟨by rw [Run.bind_fail hx, Run.bind_fail (heq.trans hx)], ?_⟩
    rw [Run.bind_fail hx]
    exact hend
  · next hx =>
    refine ⟨by rw [Run.bind_exhausted hx, Run.bind_exhausted (heq.trans hx)], ?_⟩
    rw [Run.bind_exhausted hx]
    trivial

/-- A frame that has been filled is no longer of account. -/
theorem tail {i : Nat} (h : R.Stays (i :: filling) s x y P) : R.Stays filling s x y P := by
  obtain ⟨heq, hend⟩ := h
  refine ⟨heq, ?_⟩
  split at hend
  · exact ⟨⟨hend.1.onward, hend.1.orderly.tail⟩, hend.2⟩
  · exact ⟨hend.onward, hend.orderly.tail⟩
  · trivial

theorem ret (hs : R.Orderly filling s) {a : α} (ha : P s.closures.size a) :
    R.Stays filling s (pure a) (pure a) P :=
  ⟨rfl, .refl hs, ha⟩

theorem fail (hs : R.Orderly filling s) (c : Cause) :
    R.Stays filling s (Run.fail c) (Run.fail c) P :=
  ⟨rfl, .refl hs⟩

theorem ofExcept (hs : R.Orderly filling s) {r : Except Cause α}
    (hr : ∀ a, r = .ok a → P s.closures.size a) :
    R.Stays filling s (Run.ofExcept r) (Run.ofExcept r) P := by
  cases r with
  | ok a => exact ret hs (hr a rfl)
  | error c => exact fail hs c

theorem read_bind {f g : Store Closure → α} {k l : α → Eval β} (hfg : g s = f s)
    (h : R.Stays filling s (k (f s)) (l (f s)) Q) :
    R.Stays filling s (Run.read f >>= k) (Run.read g >>= l) Q := by
  have hread : (Run.read g >>= l) s = l (f s) s := by rw [← hfg]; rfl
  exact ⟨hread.trans h.1, h.2⟩

/-- Handing out an identity. -/
theorem fresh_bind {f g : Nat → Eval β} (hs : R.Orderly filling s)
    (hfg : ∀ t, R.Later filling s t → R.Stays filling t (f s.nextId) (g s.nextId) Q) :
    R.Stays filling s (Eval.fresh >>= f) (Eval.fresh >>= g) Q :=
  have hlater := Later.of_eq (t := s.fresh.2) hs rfl rfl
  after hlater (hfg _ hlater) rfl rfl

theorem print (hs : R.Orderly filling s) (line : String) :
    R.Stays filling s (Run.modify (·.printLine line)) (Run.modify (·.printLine line))
      fun _ _ => True :=
  ⟨rfl, .of_eq hs rfl rfl, trivial⟩

/-- Making a list or a map. -/
theorem make {w : Nat → Value} (hs : R.Orderly filling s)
    (hw : ∀ id, R.Known s.closures.size (w id)) :
    R.Stays filling s (do return w (← Eval.fresh)) (do return w (← Eval.fresh)) R.Known :=
  fresh_bind hs fun _ hlater => ret hlater.orderly (hlater.known (hw _))

theorem catching {f g : Cause → Eval α} (hxy : R.Stays filling s x y P)
    (hfg : ∀ c t, R.Later filling s t → R.Stays filling t (f c) (g c) P) :
    R.Stays filling s (Eval.catching x f) (Eval.catching y g) P := by
  obtain ⟨heq, hend⟩ := hxy
  split at hend
  · next a t hx =>
    have hcatch : Eval.catching x f s = .ok a t := Run.recover_ok hx
    have hcatch' : Eval.catching y g s = .ok a t := Run.recover_ok (heq.trans hx)
    refine ⟨by rw [hcatch, hcatch'], ?_⟩
    rw [hcatch]
    exact hend
  · next c t hx =>
    exact after hend (hfg c t hend) (Run.recover_fail hx) (Run.recover_fail (heq.trans hx))
  · next hx =>
    have hcatch : Eval.catching x f s = .exhausted := Run.recover_exhausted hx
    have hcatch' : Eval.catching y g s = .exhausted := Run.recover_exhausted (heq.trans hx)
    refine ⟨by rw [hcatch, hcatch'], ?_⟩
    rw [hcatch]
    trivial

/-- Adding a frame. No lambda sees it yet. -/
theorem push_bind {f g : Nat → Eval β} {slots : Array Value} {parent : Option Nat}
    (hs : R.Orderly filling s) (hslots : ∀ v ∈ slots, R.Known s.closures.size v)
    (hparent : ∀ p, parent = some p → R.Ready filling bound s p)
    (hfg : ∀ inner t, R.Later filling s t → R.Ready filling bound t inner → Unseen t inner →
      R.Stays filling t (f inner) (g inner) Q) :
    R.Stays filling s (Eval.push slots parent >>= f) (Eval.push slots parent >>= g) Q := by
  have hready := hs.ready_push hslots hparent
  have hlater : R.Later filling s (s.push slots parent).2 :=
    ⟨⟨s.grows_push slots parent, fun _ _ h => h⟩, hready.toOrderly⟩
  exact after hlater (hfg _ _ hlater hready (hs.unseen_push slots parent)) rfl rfl

/-- Adding a frame inside the one that is evaluated in. -/
theorem nest_bind {f g : Nat → Eval β} {slots : Array Value} (h : R.Ready filling bound s frame)
    (hslots : ∀ v ∈ slots, R.Known s.closures.size v)
    (hfg : ∀ inner t, R.Later filling s t → R.Ready filling bound t inner → Unseen t inner →
      R.Stays filling t (f inner) (g inner) Q) :
    R.Stays filling s (Eval.push slots (some frame) >>= f) (Eval.push slots (some frame) >>= g) Q :=
  push_bind h.toOrderly hslots (fun _ hp => Option.some.inj hp ▸ h) hfg

theorem write (hs : R.Orderly filling s) (index : Nat) (hv : R.Known s.closures.size v)
    (hseen : R.tidy → ∀ (id : Nat) (c : Closure), s.closures[id]? = some c →
      s.Sees c.frame frame → R.Known id v) :
    R.Stays filling s (Eval.write frame index v) (Eval.write frame index v) fun _ _ => True :=
  ⟨rfl, ⟨⟨s.grows_write frame index v, fun _ _ h => h⟩, hs.write index hv hseen⟩, trivial⟩

theorem close (h : R.Ready filling bound s frame) {clauses : List Clause}
    (hallowed : R.Allows (Clause.globalsAll clauses) (!bound && Clause.tameAll clauses)) :
    R.Stays filling s (Eval.close ⟨clauses, frame⟩) (Eval.close ⟨clauses, frame⟩) R.Known := by
  refine ⟨rfl, ⟨s.onward_close _, h.close hallowed⟩, Value.only_function.mpr ?_⟩
  show s.closures.size < (s.closures.push _).size
  rw [Array.size_push]
  exact Nat.lt_add_one _

end Stays

end

end Setting

end Clausal
