import Clausal.Proofs.Items
import Clausal.Proofs.Labelled
import Clausal.Session

/-!
# Calls on the items of a list

The built-in functions that take a function and a list call the function on one item after the
other, and all that they do depends on the items alone. So what they do on two lists joined is what
they do on the first list and then on the second.

* `foldValues_append`: folding over values and then over others.
* `gather`: what a function gives on values, one after the other. `collect` makes a list of it
  (`collect_eq`), and it goes on from values to others (`gather_append`).
* `followedBy`: one run that gives a list and then another, with the items of both in one list.
* `higher_order_natives_distribute`: this of `foldl`, `map` and `filter` on two lists joined, as
  long as a word can say how long they are together.
* `Session.map_loses_items`: otherwise items are lost, and with them calls and failures.
-/

namespace Clausal

section

variable {ε κ : Type}

/-- Run `f` on values one after the other, and keep what it gives. -/
def gather (f : Value → Run ε (Store κ) (Option Value)) :
    List Value → Run ε (Store κ) (List Value)
  | [] => return []
  | x :: xs => do
    let kept ← f x
    let rest ← gather f xs
    return kept.toList ++ rest

/-- Make a list of what a run gives. -/
def listing (run : Run ε (Store κ) (List Value)) : Run ε (Store κ) Value := do
  let kept ← run
  let id ← Eval.fresh
  return .list (.ofList id kept)

variable {f : Value → Run ε (Store κ) (Option Value)} {xs ys : Sequence Value}

theorem gather_append (as bs : List Value) :
    gather f (as ++ bs) = do
      let us ← gather f as
      let vs ← gather f bs
      return us ++ vs := by
  induction as with
  | nil => simp [gather]
  | cons x as ih =>
    simp only [List.cons_append, gather, ih, bind_assoc, pure_bind, List.append_assoc]

/-- From an index on, what is kept comes behind what was. -/
theorem collectFrom_eq (hx : xs.content.Sound) (count i : Nat) (hcount : i + count = xs.size)
    (kept : List Value) :
    collectFrom xs f count i kept = do
      let rest ← gather f (xs.items.drop i)
      return kept.reverse ++ rest := by
  have hlength : xs.items.length = xs.size := hx.length_items
  induction count generalizing i kept with
  | zero =>
    rw [List.drop_eq_nil_of_le (by omega), gather]
    funext s
    simp [collectFrom, pure, Run.pure, Bind.bind, Run.bind]
  | succ count ih =>
    have hlt : i < xs.items.length := by omega
    have hitem : Value.item xs i = xs.items[i] := by
      rw [Value.item_eq_getElem? hx, List.getElem?_eq_getElem hlt]
      rfl
    rw [List.drop_eq_getElem_cons hlt, gather]
    funext s
    rw [collectFrom, hitem]
    cases hrun : f xs.items[i] s with
    | ok v t =>
      rw [bind_assoc, Run.bind_ok hrun]
      cases v with
      | none => simp [ih (i + 1) (by omega)]
      | some v => simp [ih (i + 1) (by omega)]
    | fail e t => rw [bind_assoc, Run.bind_fail hrun]
    | exhausted => rw [bind_assoc, Run.bind_exhausted hrun]

theorem collect_eq (hx : xs.content.Sound) : collect xs f = listing (gather f xs.items) := by
  rw [collect, collectFrom_eq hx xs.size 0 (Nat.zero_add _), listing]
  simp

/-- What is kept of values that are kept or left out stands among them, in their order. -/
theorem gather_sublist (hf : ∀ x s v t, f x s = .ok (some v) t → v = x) {as us : List Value}
    {s t : Store κ} (h : gather f as s = .ok us t) : us.Sublist as := by
  induction as generalizing us s with
  | nil =>
    cases h
    exact .slnil
  | cons x as ih =>
    obtain ⟨kept, mid, hkept, hrest⟩ := Run.bind_eq_ok_iff.mp h
    obtain ⟨rest, last, hgather, hlast⟩ := Run.bind_eq_ok_iff.mp hrest
    cases hlast
    cases kept with
    | none => exact (ih hgather).cons x
    | some v =>
      obtain rfl := hf x s v mid hkept
      exact (ih hgather).cons_cons v

/-! ## One list and then another -/

/-- The items of a list; no other value has any. -/
def Value.listItems : Value → List Value
  | .list xs => xs.items
  | _ => []

/-- Take back the identity that was handed out last. -/
def Store.takeBack (s : Store κ) : Store κ := { s with nextId := s.nextId - 1 }

/-- Run the first and then the second, which give lists, and make one list of the items of both. The
two lists themselves are not kept, so their identities are still to be had. -/
def followedBy (first second : Run ε (Store κ) Value) : Run ε (Store κ) Value := do
  let a ← first
  Run.modify Store.takeBack
  let b ← second
  Run.modify Store.takeBack
  listing (return a.listItems ++ b.listItems)

/-- What a list was made of is all that is left of it without its identity. -/
theorem listing_bind {β : Type} (run : Run ε (Store κ) (List Value))
    (next : List Value → Run ε (Store κ) β) :
    (do
      let v ← listing run
      Run.modify Store.takeBack
      next v.listItems) = run >>= next := by
  funext s
  cases hrun : run s with
  | ok kept t =>
    have hlisting : listing run s =
        .ok (.list (.ofList t.nextId kept)) { t with nextId := t.nextId + 1 } := by
      rw [listing, Run.bind_ok hrun]
      rfl
    rw [Run.bind_ok hlisting, Run.bind_ok hrun]
    exact congrArg (next · t) (Sequence.items_ofList _ kept)
  | fail e t =>
    have hlisting : listing run s = .fail e t := Run.bind_fail hrun
    rw [Run.bind_fail hlisting, Run.bind_fail hrun]
  | exhausted =>
    have hlisting : listing run s = .exhausted := Run.bind_exhausted hrun
    rw [Run.bind_exhausted hlisting, Run.bind_exhausted hrun]

theorem followedBy_listing (x y : Run ε (Store κ) (List Value)) :
    followedBy (listing x) (listing y) =
      listing (do let us ← x; let vs ← y; return us ++ vs) := by
  have hsecond (us : List Value) := listing_bind y fun vs => listing (return us ++ vs)
  have hfirst := listing_bind x fun us => y >>= fun vs => listing (return us ++ vs)
  simp only [followedBy, hsecond, hfirst]
  simp only [listing, bind_assoc, pure_bind]

/-- After a failure of the first nothing is run. -/
theorem followedBy_fail {first second : Run ε (Store κ) Value} {e : ε} {s t : Store κ}
    (h : first s = .fail e t) : followedBy first second s = .fail e t := Run.bind_fail h

theorem listing_ok {run : Run ε (Store κ) (List Value)} {s t : Store κ} {v : Value}
    (h : listing run s = .ok v t) :
    ∃ kept mid, run s = .ok kept mid ∧ v.listItems = kept := by
  obtain ⟨kept, mid, hkept, hrest⟩ := Run.bind_eq_ok_iff.mp h
  cases hrest
  exact ⟨kept, mid, hkept, Sequence.items_ofList _ kept⟩

end

/-! ## Built-in functions -/

section

variable {ε κ : Type} (invoke : Invoke ε κ) (f : Function) {xs ys : Sequence Value}

theorem foldValues_append (z : Value) (as bs : List Value) :
    foldValues invoke f z (as ++ bs) =
      foldValues invoke f z as >>= fun w => foldValues invoke f w bs := by
  induction as generalizing z with
  | nil => rfl
  | cons x as ih => simp only [List.cons_append, foldValues, ih, bind_assoc]

/-- The calls that `map` makes on an item. -/
def mapped (x : Value) : Run ε (Store κ) (Option Value) := do
  return some (← invoke f [x])

/-- The calls that `filter` makes on an item. -/
def passed (x : Value) : Run ε (Store κ) (Option Value) := do
  let keep ← invoke f [x]
  return if keep.truthy then some x else none

/-- What passes is the item itself. -/
theorem passed_ok {x v : Value} {s t : Store κ} (h : passed invoke f x s = .ok (some v) t) :
    v = x := by
  obtain ⟨keep, mid, -, hrest⟩ := Run.bind_eq_ok_iff.mp h
  split at hrest
  · cases hrest
    rfl
  · cases hrest

variable [Catchable ε]

theorem foldl_run (z : Value) (xs : Sequence Value) :
    Native.foldl.run invoke [.function f, z, .list xs] = foldValues invoke f z xs.items := rfl

theorem map_run (hx : xs.content.Sound) :
    Native.map.run invoke [.function f, .list xs] = listing (gather (mapped invoke f) xs.items) :=
  collect_eq hx

theorem filter_run (hx : xs.content.Sound) :
    Native.filter.run invoke [.function f, .list xs] =
      listing (gather (passed invoke f) xs.items) :=
  collect_eq hx

/-- The higher-order built-in functions distribute over joining lists, whatever the function that
they are given does: folding over two lists joined is folding over the first and then, with what
comes out, over the second; mapping and filtering is that of the first list and then that of the
second, with the items of both results in one list. What is filtered stands in the list, in this
order. If anything fails on the first list, then the second is not looked at. -/
theorem higher_order_natives_distribute {joined z : Value} {id : Nat} (hx : xs.content.Sound)
    (hy : ys.content.Sound) (hword : xs.size + ys.size < Rope.wordSize)
    (hjoined : BinaryOp.add.apply id (.list xs) (.list ys) = .ok joined) :
    Native.foldl.run invoke [.function f, z, joined] = (do
      let w ← Native.foldl.run invoke [.function f, z, .list xs]
      Native.foldl.run invoke [.function f, w, .list ys]) ∧
    Native.map.run invoke [.function f, joined] =
      followedBy (Native.map.run invoke [.function f, .list xs])
        (Native.map.run invoke [.function f, .list ys]) ∧
    Native.filter.run invoke [.function f, joined] =
      followedBy (Native.filter.run invoke [.function f, .list xs])
        (Native.filter.run invoke [.function f, .list ys]) ∧
    (∀ s v t, Native.filter.run invoke [.function f, .list xs] s = .ok v t →
      v.listItems.Sublist xs.items) ∧
    ∀ s e t,
      (Native.foldl.run invoke [.function f, z, .list xs] s = .fail e t →
        Native.foldl.run invoke [.function f, z, joined] s = .fail e t) ∧
      (Native.map.run invoke [.function f, .list xs] s = .fail e t →
        Native.map.run invoke [.function f, joined] s = .fail e t) ∧
      (Native.filter.run invoke [.function f, .list xs] s = .fail e t →
        Native.filter.run invoke [.function f, joined] s = .fail e t) := by
  cases hjoined
  have hitems := Sequence.items_append_of_lt id hx hy hword
  have hsound : (xs.append id ys).content.Sound := by
    rw [Sequence.content_append]
    exact hx.append hy
  have hfold : Native.foldl.run invoke [.function f, z, .list (xs.append id ys)] =
      Native.foldl.run invoke [.function f, z, .list xs] >>= fun w =>
        Native.foldl.run invoke [.function f, w, .list ys] := by
    simp only [foldl_run, hitems, foldValues_append]
  have hmap : Native.map.run invoke [.function f, .list (xs.append id ys)] =
      followedBy (Native.map.run invoke [.function f, .list xs])
        (Native.map.run invoke [.function f, .list ys]) := by
    rw [map_run invoke f hsound, map_run invoke f hx, map_run invoke f hy, followedBy_listing,
      hitems, gather_append]
  have hfilter : Native.filter.run invoke [.function f, .list (xs.append id ys)] =
      followedBy (Native.filter.run invoke [.function f, .list xs])
        (Native.filter.run invoke [.function f, .list ys]) := by
    rw [filter_run invoke f hsound, filter_run invoke f hx, filter_run invoke f hy,
      followedBy_listing, hitems, gather_append]
  refine ⟨hfold, hmap, hfilter, fun s v t hrun => ?_, fun s e t => ⟨?_, ?_, ?_⟩⟩
  · rw [filter_run invoke f hx] at hrun
    obtain ⟨kept, mid, hkept, rfl⟩ := listing_ok hrun
    exact gather_sublist (fun _ _ _ _ => passed_ok invoke f) hkept
  · intro hfail
    rw [hfold, Run.bind_fail hfail]
  · intro hfail
    rw [hmap, followedBy_fail hfail]
  · intro hfail
    rw [hfilter, followedBy_fail hfail]

end

/-- Truth values in a concatenation and others in a stored list, filtered by a function that prints
them and gives them back. -/
theorem higher_order_natives_distribute_print :
    let xs : Sequence Value := ⟨1, .cat (.leaf (List.replicate 5 (.bool true)).toArray)
      (.leaf (List.replicate 5 (.bool false)).toArray) 10⟩
    let ys : Sequence Value := ⟨2, .leaf #[.bool false, .bool true]⟩
    let print : Value := .function (.native .print 11)
    let invoke := Function.invoke .empty 1
    ∃ joined, BinaryOp.add.apply 3 (.list xs) (.list ys) = .ok joined ∧
      Native.filter.run invoke [print, joined] =
        followedBy (Native.filter.run invoke [print, .list xs])
          (Native.filter.run invoke [print, .list ys]) := by
  intro xs ys print invoke
  have hx : xs.content.Sound := ⟨by decide, by decide, by decide, by decide, trivial, trivial⟩
  have hy : ys.content.Sound := trivial
  obtain ⟨joined, hjoined⟩ : ∃ joined, BinaryOp.add.apply 3 (.list xs) (.list ys) = .ok joined :=
    ⟨_, rfl⟩
  obtain ⟨-, -, hfilter, -⟩ := higher_order_natives_distribute invoke (.native .print 11)
    (z := .void) hx hy (by decide) hjoined
  exact ⟨joined, hjoined, hfilter⟩

/-! ## Lists that are too long -/

namespace Session

/-- A list of `2^63` items, sixteen truth values doubled 59 times, and a function that dies of the
one among the sixteen that is false, the tenth. -/
def doublingText (list : String) : String :=
  "with (a = [true, true, true], xs = foldl(@(x, c) = x + x, a + a + a + [false] + a + a, \"" ++
    String.ofList (List.replicate 59 '.') ++ "\")) = map(@(x) = x or die(\"unlucky\"), " ++ list ++
    ")"

/-- A list of `2^63` items joined with one of nine more seems to have nine items. Mapping a function
over it goes well, though mapping the function over the first list fails. -/
theorem map_loses_items :
    (∃ e t, evalText (doublingText "xs") .new = .fail e t ∧ e.message = "unlucky") ∧
    ∃ v t, evalText (doublingText "xs + (xs + a + a + a)") .new = .ok v t ∧
      v.listItems.map Value.truthy = List.replicate 9 true := by
  constructor
  · have hfails : (match evalText (doublingText "xs") .new with
        | .fail e _ => e.message == "unlucky"
        | .ok .. | .exhausted => false) = true := by decide +kernel
    split at hfails
    · next e t hrun => exact ⟨e, t, hrun, beq_iff_eq.mp hfails⟩
    · cases hfails
    · cases hfails
  · have hpasses : ((evalText (doublingText "xs + (xs + a + a + a)") .new).passes fun v _ =>
        v.listItems.map Value.truthy == List.replicate 9 true) = true := by decide +kernel
    obtain ⟨v, t, hrun, hitems⟩ := Outcome.exists_of_passes hpasses
    exact ⟨v, t, hrun, beq_iff_eq.mp hitems⟩

end Session

end Clausal
