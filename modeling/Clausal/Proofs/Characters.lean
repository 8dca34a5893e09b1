import Clausal.Eval
import Clausal.Proofs.Items

/-!
# Strings as lists of characters

A string and a list of its characters answer alike. Joining, taking apart, counting and folding are
done for both on their own: strings drop and take characters, lists have ropes whose operations cut
bounds to the size and share what they can. `Sequence.Spells xs s` says that a list of whatever
shape holds the characters of a string. The operations lead from such a pair to such a pair
(`Sequence.Spells.append`, `Sequence.Spells.extract`), and what is found at an index is the same.

The result is `strings_behave_as_lists`. Joining comes with a condition, since the size of a list
is a word: a word can count the characters of both strings. So it is with any two strings that are
in memory, since none of them has `2^63` bytes.
-/

namespace Clausal

namespace Value

theorem length_characters (s : String) : (characters s).length = s.length := by
  rw [characters, List.length_map, String.length_toList]

theorem characters_append (s t : String) : characters (s ++ t) = characters s ++ characters t := by
  rw [characters, String.toList_append, List.map_append]
  rfl

/-- The characters of a part of a string are a part of its characters. -/
theorem characters_part (s : String) (start count : Nat) :
    characters (String.ofList ((s.toList.drop start).take count)) =
      ((characters s).drop start).take count := by
  rw [characters, String.toList_ofList, List.map_take, List.map_drop]
  rfl

end Value

/-! ## Lists that hold the characters of a string -/

/-- The list, of whatever shape, holds the characters of the string. -/
structure Sequence.Spells (xs : Sequence Value) (s : String) : Prop where
  sound : xs.content.Sound
  items : xs.items = Value.characters s

/-- The list, of whatever shape, holds two numbers. -/
structure Sequence.Bounds (p : Sequence Value) (a b : Float) : Prop where
  sound : p.content.Sound
  items : p.items = [.number a, .number b]

theorem Sequence.Bounds.sliceBounds? {p : Sequence Value} {a b : Float} (h : p.Bounds a b) :
    Value.sliceBounds? p =
      some ((Value.toIndex? a).getD 0, (Value.toIndex? b).getD 0) := by
  have hsize : p.size = 2 := by rw [Sequence.size, ← h.sound.length_items]; exact congrArg _ h.items
  rw [Value.sliceBounds?, hsize, Value.item_eq_getElem? h.sound, Value.item_eq_getElem? h.sound,
    h.items]
  rfl

namespace Sequence.Spells

variable {xs ys : Sequence Value} {s t : String}

theorem size_eq (h : xs.Spells s) : xs.size = s.length := by
  rw [← Value.length_characters, ← h.items, Sequence.size, ← h.sound.length_items]
  rfl

/-- Every string can be spelt. -/
theorem ofList (id : Nat) (s : String) : (Sequence.ofList id (Value.characters s)).Spells s := by
  refine ⟨?_, Sequence.items_ofList id _⟩
  unfold Sequence.ofList
  split <;> trivial

theorem append (hx : xs.Spells s) (hy : ys.Spells t) (hword : s.length + t.length < Rope.wordSize)
    (id : Nat) : (xs.append id ys).Spells (s ++ t) := by
  constructor
  · rw [Sequence.content_append]
    exact hx.sound.append hy.sound
  · rw [Sequence.items_append_of_lt id hx.sound hy.sound, hx.items, hy.items,
      Value.characters_append]
    rwa [hx.size_eq, hy.size_eq]

/-- Cutting the bounds to the size, as lists do, makes no difference. -/
theorem extract (hx : xs.Spells s) (id start stop : Nat) :
    (xs.extract id start stop).Spells
      (String.ofList ((s.toList.drop start).take (stop - start))) := by
  constructor
  · rw [Sequence.content_extract]
    exact hx.sound.extract start stop
  · rw [Sequence.items_extract id hx.sound, hx.items, Value.characters_part, List.drop_take]
    have hlength := hx.size_eq.trans (Value.length_characters s).symm
    apply List.ext_getElem?
    intro i
    simp only [List.getElem?_take, List.getElem?_drop, hlength]
    by_cases hi : start + i < (Value.characters s).length
    · by_cases hstop : start + i < stop
      · rw [if_pos (by omega), if_pos (by omega)]
        congr 1
        omega
      · rw [if_neg (by omega), if_neg (by omega)]
    · rw [List.getElem?_eq_none (by omega : _ ≤ start + i), ite_self]
      split
      · exact List.getElem?_eq_none (by omega)
      · rfl

/-- The characters from an index on. -/
theorem extract_size (hx : xs.Spells s) (id start : Nat) :
    (xs.extract id start xs.size).Spells (String.ofList (s.toList.drop start)) := by
  have hpart := hx.extract id start xs.size
  have hlength : (s.toList.drop start).length = xs.size - start := by
    rw [List.length_drop, String.length_toList, hx.size_eq]
  rwa [List.take_of_length_le (Nat.le_of_eq hlength)] at hpart

end Sequence.Spells

/-! ## Operators -/

/-- One operation gives a string and the other a list of its characters. -/
def Corresponds (x y : Except Cause Value) : Prop :=
  ∃ u zs, x = .ok (.text u) ∧ y = .ok (.list zs) ∧ zs.Spells u

section

variable {xs ys p : Sequence Value} {s t : String} {a b : Float}

theorem add_corresponds (hx : xs.Spells s) (hy : ys.Spells t)
    (hword : s.length + t.length < Rope.wordSize) (id : Nat) :
    Corresponds (BinaryOp.add.apply id (.text s) (.text t))
      (BinaryOp.add.apply id (.list xs) (.list ys)) :=
  ⟨_, _, rfl, rfl, hx.append hy hword id⟩

theorem range_corresponds (hx : xs.Spells s) (id : Nat) (n : Float) :
    Corresponds (BinaryOp.range.apply id (.text s) (.number n))
      (BinaryOp.range.apply id (.list xs) (.number n)) :=
  ⟨_, _, rfl, rfl, hx.extract_size id _⟩

theorem slice_corresponds (hx : xs.Spells s) (hp : p.Bounds a b) (id : Nat) :
    Corresponds (BinaryOp.range.apply id (.text s) (.list p))
      (BinaryOp.range.apply id (.list xs) (.list p)) := by
  simp only [BinaryOp.apply, Value.range, hp.sliceBounds?, Option.map_some]
  exact ⟨_, _, rfl, rfl, hx.extract id _ _⟩

/-- The item of a list at an index, or void. -/
theorem index_list (h : xs.content.Sound) (id : Nat) (n : Float) :
    BinaryOp.index.apply id (.list xs) (.number n) =
      .ok (((Value.toIndex? n).bind (xs.items[·]?)).getD .void) := by
  simp only [BinaryOp.apply, Value.index]
  cases Value.toIndex? n with
  | none => rfl
  | some i =>
    dsimp only
    rw [Value.item_eq_getElem? h]
    rfl

/-- The character of a string at an index, or void. -/
theorem index_text (id : Nat) (s : String) (n : Float) :
    BinaryOp.index.apply id (.text s) (.number n) =
      .ok (((Value.toIndex? n).bind ((Value.characters s)[·]?)).getD .void) := by
  simp only [BinaryOp.apply, Value.index]
  cases Value.toIndex? n with
  | none => rfl
  | some i =>
    simp only [Option.bind_some, Value.characters, List.getElem?_map]
    cases s.toList[i]? <;> rfl

end

/-! ## Built-in functions -/

section

variable {ε κ : Type} [Catchable ε] (invoke : Invoke ε κ) {xs : Sequence Value} {s : String}

theorem len_spells (hx : xs.Spells s) :
    Native.len.run invoke [.text s] = Native.len.run invoke [.list xs] := by
  simp only [Native.run, hx.size_eq]

/-- What is no function is refused in both cases. -/
theorem foldl_spells (hx : xs.Spells s) (f z : Value) :
    Native.foldl.run invoke [f, z, .text s] = Native.foldl.run invoke [f, z, .list xs] := by
  cases f with
  | function f =>
    simp only [Native.run, hx.items]
    rfl
  | _ => rfl

/-- Strings behave as lists of their characters. If lists of any shape hold the characters of two
strings, then joining both gives a string and a list of its characters, and so does taking the rest
from a number on or the part between two numbers, whatever these are. At every number both have the
same item, or void, both have the same length, and folding a function over both is the same run. -/
theorem strings_behave_as_lists {ys p : Sequence Value} {t : String} {a b : Float}
    (hx : xs.Spells s) (hy : ys.Spells t) (hp : p.Bounds a b) (id : Nat) (n : Float)
    (f z : Value) :
    (s.length + t.length < Rope.wordSize →
      Corresponds (BinaryOp.add.apply id (.text s) (.text t))
        (BinaryOp.add.apply id (.list xs) (.list ys))) ∧
    BinaryOp.index.apply id (.text s) (.number n) =
      .ok (((Value.toIndex? n).bind ((Value.characters s)[·]?)).getD .void) ∧
    BinaryOp.index.apply id (.list xs) (.number n) =
      BinaryOp.index.apply id (.text s) (.number n) ∧
    Corresponds (BinaryOp.range.apply id (.text s) (.number n))
      (BinaryOp.range.apply id (.list xs) (.number n)) ∧
    Corresponds (BinaryOp.range.apply id (.text s) (.list p))
      (BinaryOp.range.apply id (.list xs) (.list p)) ∧
    Native.len.run invoke [.text s] = Native.len.run invoke [.list xs] ∧
    Native.foldl.run invoke [f, z, .text s] = Native.foldl.run invoke [f, z, .list xs] := by
  refine ⟨fun hword => add_corresponds hx hy hword id, index_text id s n, ?_,
    range_corresponds hx id n, slice_corresponds hx hp id, len_spells invoke hx,
    foldl_spells invoke hx f z⟩
  rw [index_list hx.sound, index_text, hx.items]

end

/-- A list that is a concatenation, joined with itself and cut between bounds of which one is no
number. -/
theorem strings_behave_as_lists_ten :
    ∃ xs p : Sequence Value, xs.Spells "abcdefghij" ∧ p.Bounds (0 / 0) 7.5 ∧
      Corresponds (BinaryOp.add.apply 4 (.text "abcdefghij") (.text "abcdefghij"))
        (BinaryOp.add.apply 4 (.list xs) (.list xs)) ∧
      Corresponds (BinaryOp.range.apply 4 (.text "abcdefghij") (.list p))
        (BinaryOp.range.apply 4 (.list xs) (.list p)) := by
  have hx := (Sequence.Spells.ofList 1 "abcde").append (.ofList 2 "fghij") (by decide +kernel) 3
  have hp : (Sequence.ofList 1 [.number (0 / 0), .number 7.5]).Bounds (0 / 0) 7.5 :=
    ⟨trivial, Sequence.items_ofList 1 _⟩
  obtain ⟨hadd, -, -, -, hslice, -⟩ := strings_behave_as_lists
    (Function.invoke Environment.empty 0) hx hx hp 4 0 .void .void
  exact ⟨_, _, hx, hp, hadd (by decide +kernel), hslice⟩

end Clausal
