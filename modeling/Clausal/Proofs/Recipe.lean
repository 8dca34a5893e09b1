import Clausal.Proofs.Items
import Clausal.Proofs.Labelled
import Clausal.Session
import Mathlib.Algebra.Group.Nat.Defs

/-!
# How long lists can get

A list that shares its parts with others can be far longer than all that is stored for it: joining a
list with itself doubles it and costs one node. Sizes are words, so a list of `2^64` items or more
does not have the size that it should have.

A recipe says how a list is made from stored ones by joining and cutting. It stands for a sequence
of items (`Recipe.contents`), and following it makes a list (`Recipe.make`).

* `Recipe.neverWraps_iff`: no size and no bound wraps in the making if, and only if, all joined
  sequences on the way are ones whose length a word can say. Cutting never wraps.
* `Recipe.Sayable.denote_make`: then the list that is made has the items, and their number as size.
* `Recipe.sayable_of_count_lt`, `Recipe.count_le`: this is so unless `2^64` items go into it, and
  with lists of `n` items at most that takes joins nested `64 - log n` deep.
* `Recipe.doubling_wraps`: which is not much. Sixteen items are doubled 59 times, and the result,
  joined with itself and nine more, has nine items.
-/

namespace Clausal

namespace Rope

variable {α : Type} {r a b : Rope α}

/-- All sizes and bounds that a rope stores are words. -/
def Fits : Rope α → Prop
  | .leaf items => items.size < wordSize
  | .cat head tail size => size < wordSize ∧ head.Fits ∧ tail.Fits
  | .slice base start stop => start < wordSize ∧ stop < wordSize ∧ base.Fits

theorem Fits.size_lt (h : r.Fits) : r.size < wordSize := by
  cases r with
  | leaf items => exact h
  | cat head tail size => exact h.1
  | slice base start stop => exact Nat.lt_of_le_of_lt (Nat.sub_le stop start) h.2.1

theorem fits_of_short {items : List α} (h : items.length ≤ copied) :
    (leaf items.toArray).Fits := by
  have hwords : copied < wordSize := by decide
  rw [Fits, List.size_toArray]
  omega

theorem Fits.append (ha : a.Fits) (hb : b.Fits) (hvalid : a.Valid) (hvalid' : b.Valid)
    (hsum : a.size + b.size < wordSize) : (a.append b).Fits := by
  rw [Rope.append, Nat.mod_eq_of_lt hsum]
  split
  · exact hb
  split
  · exact ha
  dsimp only
  split
  · next hshort =>
    refine fits_of_short ?_
    rw [List.length_append, hvalid.items_eq, hvalid'.items_eq, hvalid.length_denote,
      hvalid'.length_denote]
    exact hshort
  · exact ⟨hsum, ha, hb⟩

/-- What is joined has the sum of the sizes as size, as far as a word can say it. -/
theorem size_append_of_long (ha : 0 < a.size) (hb : 0 < b.size)
    (hlong : copied < (a.size + b.size) % wordSize) :
    (a.append b).size = (a.size + b.size) % wordSize := by
  have hsome : ¬ a.isEmpty = true := by simp [isEmpty]; omega
  have hsome' : ¬ b.isEmpty = true := by simp [isEmpty]; omega
  rw [Rope.append, if_neg hsome, if_neg hsome']
  dsimp only
  rw [if_neg (Nat.not_le.mpr hlong)]
  rfl

/-- The bounds of a slice of a slice are added to where it starts, and never get past where it
ends. -/
theorem Fits.extract (h : r.Fits) (hvalid : r.Valid) (start stop : Nat) :
    (r.extract start stop).Fits := by
  have hsize := h.size_lt
  rw [Rope.extract]
  split
  · exact h
  split
  · show 0 < wordSize
    decide
  split
  · next hshort =>
    refine fits_of_short ?_
    rw [hvalid.stretch_eq, List.length_take, List.length_drop, hvalid.length_denote]
    omega
  · cases r with
    | leaf items => exact ⟨by omega, by omega, h⟩
    | cat head tail size => exact ⟨by omega, by omega, h⟩
    | slice base offset last =>
      obtain ⟨-, hlast, hbase⟩ := h
      obtain ⟨hsome, -⟩ := hvalid
      simp only [size] at *
      exact ⟨by omega, by omega, hbase⟩

end Rope

/-- How a sequence is made from given items, with an identity for each step. -/
inductive Recipe (α : Type) where
  | items (id : Nat) (items : List α)
  | join (id : Nat) (left right : Recipe α)
  | cut (id : Nat) (whole : Recipe α) (start stop : Nat)

namespace Recipe

variable {α : Type}

/-- Follow the recipe. -/
def make : Recipe α → Sequence α
  | .items id xs => .ofList id xs
  | .join id left right => left.make.append id right.make
  | .cut id whole start stop => whole.make.extract id start stop

/-- The items that the recipe asks for. -/
def contents : Recipe α → List α
  | .items _ xs => xs
  | .join _ left right => left.contents ++ right.contents
  | .cut _ whole start stop => (whole.contents.take stop).drop start

/-- At no point of the making does a number wrap: neither the sum of two sizes that are joined, nor
a size or bound that is stored. -/
def NeverWraps : Recipe α → Prop
  | .items id xs => (Sequence.ofList id xs).content.Fits
  | .join id left right =>
    left.NeverWraps ∧ right.NeverWraps ∧ left.make.size + right.make.size < Rope.wordSize ∧
      (left.make.append id right.make).content.Fits
  | .cut id whole start stop =>
    whole.NeverWraps ∧ (whole.make.extract id start stop).content.Fits

/-- The recipe joins no sequences that are together longer than a word can say. -/
def Sayable : Recipe α → Prop
  | .items _ xs => xs.length < Rope.wordSize
  | .join _ left right =>
    left.Sayable ∧ right.Sayable ∧ (left.contents ++ right.contents).length < Rope.wordSize
  | .cut _ whole _ _ => whole.Sayable

/-- The number of items that go into a recipe, counted as often as they do. -/
def count : Recipe α → Nat
  | .items _ xs => xs.length
  | .join _ left right => left.count + right.count
  | .cut _ whole _ _ => whole.count

/-- The length of the longest list that goes into a recipe. -/
def longest : Recipe α → Nat
  | .items _ xs => xs.length
  | .join _ left right => max left.longest right.longest
  | .cut _ whole _ _ => whole.longest

/-- How deep joins are nested. -/
def depth : Recipe α → Nat
  | .items _ _ => 0
  | .join _ left right => max left.depth right.depth + 1
  | .cut _ whole _ _ => whole.depth

variable {r : Recipe α}

/-! ## What is made -/

theorem Sayable.valid_make (h : r.Sayable) :
    r.make.content.Valid ∧ r.make.denote = r.contents := by
  induction r with
  | items id xs => exact ⟨(Sequence.Built.ofList id xs).valid, Sequence.denote_ofList id xs⟩
  | join id left right ihleft ihright =>
    obtain ⟨hleft, hright, hlength⟩ := h
    obtain ⟨hvalid, hdenote⟩ := ihleft hleft
    obtain ⟨hvalid', hdenote'⟩ := ihright hright
    have hsize : left.make.denote.length = left.make.size := hvalid.length_denote
    have hsize' : right.make.denote.length = right.make.size := hvalid'.length_denote
    rw [List.length_append, ← hdenote, ← hdenote', hsize, hsize'] at hlength
    refine ⟨Sequence.valid_append id hvalid hvalid' hlength, ?_⟩
    rw [make, contents, Sequence.denote_append id hvalid hvalid', hdenote, hdenote']
  | cut id whole start stop ih =>
    obtain ⟨hvalid, hdenote⟩ := ih h
    refine ⟨Sequence.valid_extract id hvalid start stop, ?_⟩
    have hsize : whole.make.denote.length = whole.make.size := hvalid.length_denote
    rw [make, contents, Sequence.denote_extract id hvalid, hdenote, ← hsize, hdenote]
    -- bounds behind the end and an end before the start come to the same
    apply List.ext_getElem?
    intro i
    simp only [List.getElem?_drop, List.getElem?_take]
    grind

/-- The list that is made has the items that the recipe asks for. -/
theorem Sayable.denote_make (h : r.Sayable) : r.make.denote = r.contents := h.valid_make.2

theorem Sayable.size_make (h : r.Sayable) : r.make.size = r.contents.length := by
  rw [← h.denote_make]
  exact h.valid_make.1.length_denote.symm

/-! ## What wraps -/

theorem Sayable.fits_make (h : r.Sayable) : r.make.content.Fits := by
  induction r with
  | items id xs =>
    rw [make, Sequence.ofList]
    split
    · show 0 < Rope.wordSize
      decide
    · exact h
  | join id left right ihleft ihright =>
    obtain ⟨hleft, hright, hlength⟩ := h
    have hsum : left.make.size + right.make.size < Rope.wordSize := by
      rwa [hleft.size_make, hright.size_make, ← List.length_append]
    rw [make, Sequence.content_append]
    exact (ihleft hleft).append (ihright hright) hleft.valid_make.1 hright.valid_make.1 hsum
  | cut id whole start stop ih =>
    rw [make, Sequence.content_extract]
    exact (ih h).extract (valid_make (r := whole) h).1 start stop

theorem Sayable.neverWraps (h : r.Sayable) : r.NeverWraps := by
  induction r with
  | items id xs => exact fits_make h
  | join id left right ihleft ihright =>
    have hfits := h.fits_make
    obtain ⟨hleft, hright, hlength⟩ := h
    rw [List.length_append, ← hleft.size_make, ← hright.size_make] at hlength
    exact ⟨ihleft hleft, ihright hright, hlength, hfits⟩
  | cut id whole start stop ih => exact ⟨ih h, fits_make h⟩

theorem NeverWraps.sayable (h : r.NeverWraps) : r.Sayable := by
  induction r with
  | items id xs =>
    have hsize := Rope.Fits.size_lt h
    have hlength : (Sequence.ofList id xs).denote.length = (Sequence.ofList id xs).size :=
      (Sequence.Built.ofList id xs).length_denote
    rw [Sequence.denote_ofList] at hlength
    rw [Sayable, hlength]
    exact hsize
  | join id left right ihleft ihright =>
    obtain ⟨hleft, hright, hsum, -⟩ := h
    refine ⟨ihleft hleft, ihright hright, ?_⟩
    rwa [List.length_append, ← (ihleft hleft).size_make, ← (ihright hright).size_make]
  | cut id whole start stop ih => exact ih h.1

/-- Numbers wrap just where the sequences themselves are too long. -/
theorem neverWraps_iff : r.NeverWraps ↔ r.Sayable := ⟨NeverWraps.sayable, Sayable.neverWraps⟩

/-! ## How much it takes -/

theorem length_contents_le (r : Recipe α) : r.contents.length ≤ r.count := by
  induction r with
  | items id xs => exact Nat.le_refl _
  | join id left right ihleft ihright =>
    rw [contents, count, List.length_append]
    omega
  | cut id whole start stop ih =>
    rw [contents, count, List.length_drop, List.length_take]
    omega

/-- Fewer than `2^64` items make no sequence that is too long. -/
theorem sayable_of_count_lt (h : r.count < Rope.wordSize) : r.Sayable := by
  induction r with
  | items id xs => exact h
  | join id left right ihleft ihright =>
    have hleft := left.length_contents_le
    have hright := right.length_contents_le
    rw [count] at h
    exact ⟨ihleft (by omega), ihright (by omega), by rw [List.length_append]; omega⟩
  | cut id whole start stop ih => exact ih h

/-- Every level of joins doubles the number of items at most. -/
theorem count_le (r : Recipe α) : r.count ≤ r.longest * 2 ^ r.depth := by
  induction r with
  | items id xs => simp [count, longest, depth]
  | join id left right ihleft ihright =>
    have hlevel (part : Recipe α) (hlong : part.longest ≤ max left.longest right.longest)
        (hdeep : part.depth ≤ max left.depth right.depth) :
        part.longest * 2 ^ part.depth ≤
          max left.longest right.longest * 2 ^ max left.depth right.depth :=
      Nat.mul_le_mul hlong (Nat.pow_le_pow_right (by decide) hdeep)
    have hleft := hlevel left (Nat.le_max_left _ _) (Nat.le_max_left _ _)
    have hright := hlevel right (Nat.le_max_right _ _) (Nat.le_max_right _ _)
    rw [count, longest, depth, Nat.pow_succ, ← Nat.mul_assoc]
    omega
  | cut id whole start stop ih => exact ih

/-- Join with itself, so many times. -/
def doubled (id : Nat) (r : Recipe α) : Nat → Recipe α
  | 0 => r
  | n + 1 => .join id (r.doubled id n) (r.doubled id n)

theorem count_doubled (id : Nat) (r : Recipe α) (n : Nat) :
    (r.doubled id n).count = 2 ^ n * r.count := by
  induction n with
  | zero => simp [doubled]
  | succ n ih =>
    rw [doubled, count, ih, Nat.pow_succ]
    grind

theorem length_contents_doubled (id : Nat) (r : Recipe α) (n : Nat) :
    (r.doubled id n).contents.length = 2 ^ n * r.contents.length := by
  induction n with
  | zero => simp [doubled]
  | succ n ih =>
    rw [doubled, contents, List.length_append, ih, Nat.pow_succ]
    grind

/-- The sizes of lists are right unless they get too long. Of everything that is made of given lists
by joining and cutting, in any order and with any sharing: no size and no bound wraps if, and only
if, no two sequences are joined that have `2^64` items together; then the list that is made has the
items that it should have and says how many they are. This is so whenever fewer than `2^64` items
go into it, which holds as long as joins are not nested deep enough to double the longest list up to
there. -/
theorem sizes_exact_unless_too_long (r : Recipe α) :
    (r.NeverWraps ↔ r.Sayable) ∧
    (r.Sayable → r.make.denote = r.contents ∧ r.make.size = r.contents.length) ∧
    (r.count < Rope.wordSize → r.Sayable) ∧
    (r.longest * 2 ^ r.depth < Rope.wordSize → r.Sayable) :=
  ⟨neverWraps_iff, fun h => ⟨h.denote_make, h.size_make⟩, sayable_of_count_lt,
    fun h => sayable_of_count_lt (Nat.lt_of_le_of_lt r.count_le h)⟩

/-- Nine items doubled 59 times, and a stretch of that. -/
theorem sizes_exact_unless_too_long_stretch :
    let whole := doubled 2 (.items 1 (List.replicate 9 (Value.bool true))) 59
    let r := cut 3 whole 5 (2 ^ 62)
    r.count < Rope.wordSize ∧ r.NeverWraps ∧ r.make.size = 2 ^ 62 - 5 := by
  intro whole r
  have hcount : r.count < Rope.wordSize := by
    rw [count, count_doubled]
    decide
  obtain ⟨hnever, hexact, hsayable, -⟩ := sizes_exact_unless_too_long r
  have hr := hsayable hcount
  refine ⟨hcount, hnever.mpr hr, ?_⟩
  rw [(hexact hr).2, contents, List.length_drop, List.length_take, length_contents_doubled]
  decide

/-! ## Too long -/

/-- Sixteen items doubled 59 times are `2^63`. Joined with themselves and nine more, they are
nine. -/
theorem doubling_wraps :
    let xs := doubled 2 (.items 1 (List.replicate 16 (Value.bool true))) 59
    let ys := join 4 xs (.items 3 (List.replicate 9 (Value.bool true)))
    xs.make.size = 2 ^ 63 ∧ ys.make.size = 2 ^ 63 + 9 ∧ (join 5 xs ys).make.size = 9 ∧
      ¬ (join 5 xs ys).NeverWraps := by
  intro xs ys
  have hxs : xs.Sayable := sayable_of_count_lt (by rw [count_doubled]; decide)
  have hys : ys.Sayable := sayable_of_count_lt (by rw [count, count_doubled]; decide)
  have hsize : xs.make.size = 2 ^ 63 := by
    rw [hxs.size_make, length_contents_doubled]
    decide
  have hsize' : ys.make.size = 2 ^ 63 + 9 := by
    rw [hys.size_make, contents, List.length_append, length_contents_doubled]
    decide
  have hsum : xs.make.content.size + ys.make.content.size = 2 ^ 64 + 9 := by
    show xs.make.size + ys.make.size = _
    rw [hsize, hsize']
    decide
  refine ⟨hsize, hsize', ?_, fun hnever => ?_⟩
  · have hsome : 0 < xs.make.size := by rw [hsize]; decide
    have hsome' : 0 < ys.make.size := by rw [hsize']; decide
    have hjoined := Rope.size_append_of_long hsome hsome' (by rw [hsum]; decide)
    rw [Sequence.size, make, Sequence.content_append, hjoined, hsum]
    decide
  · have hfits : 2 ^ 64 + 9 < Rope.wordSize := hsum ▸ hnever.2.2.1
    exact absurd hfits (by decide)

end Recipe

namespace Session

/-- Make such lists in a program, and ask whether the joined one is at least as long as the
first. -/
def doubledText : String :=
  "with (a = [true, true, true], b = a + a + a, xs = foldl(@(x, c) = x + x, b + a + a + [true], \"" ++
    String.ofList (List.replicate 59 '.') ++ "\")) = len(xs + (xs + b)) >= len(xs)"

/-- Sizes do wrap, and what is joined gets shorter: in lists that are made by joining, and in a
program that makes them. -/
theorem sizes_wrap :
    (∃ xs ys : Recipe Value, Rope.wordSize ≤ xs.make.size + ys.make.size ∧
      (Recipe.join 5 xs ys).make.size < xs.make.size ∧ ¬ (Recipe.join 5 xs ys).NeverWraps) ∧
    ∃ t, evalText doubledText .new = .ok (.bool false) t := by
  constructor
  · obtain ⟨hsize, hsize', hjoined, hwraps⟩ := Recipe.doubling_wraps
    refine ⟨_, _, ?_, ?_, hwraps⟩
    · rw [hsize, hsize']
      decide
    · rw [hjoined, hsize]
      decide
  · have hpasses : ((evalText doubledText .new).passes fun v _ => v.type == .bool && !v.truthy) =
        true := by decide +kernel
    obtain ⟨v, t, hrun, hfalse⟩ := Outcome.exists_of_passes hpasses
    cases v with
    | bool b =>
      cases b with
      | false => exact ⟨t, hrun⟩
      | true => cases hfalse
    | _ => cases hfalse

end Session

end Clausal
