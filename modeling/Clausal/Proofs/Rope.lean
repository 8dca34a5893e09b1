import Clausal.Value

/-!
# Ropes stand for sequences

`Rope.denote` is the sequence of a rope, read off its shape: a stored array, one sequence and then
another, a stretch of one. `Rope.Valid` says of every node of a rope what making ropes keeps: the
size of a concatenation is that of its parts, none of which is empty; the bounds of a slice lie
inside its base, which is no slice; and neither has so few items that it would have been copied.

* `Rope.Valid.get?_eq`: the walk to an index finds the item of that number.
* `Rope.Valid.locate_lt`: the walk ends at an array and inside of it.
* `Rope.Valid.append`, `Rope.Valid.extract`: the operations keep validity, and they are the
  operations on sequences (`Rope.denote_append`, `Rope.denote_extract`).
* `Value.lists_refine_sequences`: all this of everything made from given items by concatenating and
  slicing.

Sizes are words, so concatenating is as described only while the size stays below `2^64`.
-/

namespace Clausal

namespace Rope

variable {α : Type} {r a b : Rope α} {i start stop : Nat}

/-- Whether a rope is a stretch of another. -/
def isSlice : Rope α → Bool
  | .slice .. => true
  | _ => false

/-- What holds of every node of a rope. -/
def Valid : Rope α → Prop
  | .leaf _ => True
  | .cat head tail size =>
    size = head.size + tail.size ∧ copied < size ∧ 0 < head.size ∧ 0 < tail.size ∧
      head.Valid ∧ tail.Valid
  | .slice base start stop =>
    start < stop ∧ stop ≤ base.size ∧ copied < stop - start ∧ base.isSlice = false ∧ base.Valid

/-- The sequence that a rope stands for. -/
def denote : Rope α → List α
  | .leaf items => items.toList
  | .cat head tail _ => head.denote ++ tail.denote
  | .slice base start stop => (base.denote.take stop).drop start

/-- The array at which the walk to an index ends, and the index into it. -/
def locate : Rope α → Nat → Array α × Nat
  | .leaf items, i => (items, i)
  | .cat head tail _, i => if i < head.size then head.locate i else tail.locate (i - head.size)
  | .slice base start _, i => base.locate (start + i)

@[simp]
theorem denote_leaf (items : Array α) : (leaf items).denote = items.toList := rfl

theorem Valid.length_denote (h : r.Valid) : r.denote.length = r.size := by
  induction r with
  | leaf items => rfl
  | cat head tail size ihead itail =>
    obtain ⟨hsize, -, -, -, hhead, htail⟩ := h
    rw [denote, List.length_append, ihead hhead, itail htail]
    exact hsize.symm
  | slice base start stop ih =>
    obtain ⟨-, hstop, -, -, hbase⟩ := h
    rw [denote, List.length_drop, List.length_take, ih hbase, Nat.min_eq_left hstop]
    rfl

/-! ## Finding items -/

theorem Valid.get?_eq (h : r.Valid) (i : Nat) : r.get? i = r.denote[i]? := by
  induction r generalizing i with
  | leaf items => rw [get?, denote, Array.getElem?_toList]
  | cat head tail size ihead itail =>
    obtain ⟨hsize, -, -, -, hhead, htail⟩ := h
    have hlen := hhead.length_denote
    have hlen' := htail.length_denote
    rw [get?, denote]
    split
    · split
      · rw [ihead hhead, List.getElem?_append_left (by omega)]
      · rw [itail htail, List.getElem?_append_right (by omega), hlen]
    · rw [List.getElem?_eq_none (by rw [List.length_append]; omega)]
  | slice base start stop ih =>
    obtain ⟨-, hstop, -, -, hbase⟩ := h
    rw [get?, denote, List.getElem?_drop, List.getElem?_take]
    split
    · rw [if_pos (by omega), ih hbase]
    · rw [if_neg (by omega)]

/-- The walk to an index below the size never leaves the sizes of the ropes it passes, so it ends
inside an array. -/
theorem Valid.locate_lt (h : r.Valid) (hi : i < r.size) : (r.locate i).2 < (r.locate i).1.size := by
  induction r generalizing i with
  | leaf items => exact hi
  | cat head tail size ihead itail =>
    obtain ⟨hsize, -, -, -, hhead, htail⟩ := h
    simp only [Rope.size] at hi
    rw [locate]
    split
    · exact ihead hhead (by assumption)
    · exact itail htail (by omega)
  | slice base start stop ih =>
    obtain ⟨-, hstop, -, -, hbase⟩ := h
    simp only [Rope.size] at hi
    exact ih hbase (by omega)

theorem Valid.get?_eq_locate (h : r.Valid) (hi : i < r.size) :
    r.get? i = (r.locate i).1[(r.locate i).2]? := by
  induction r generalizing i with
  | leaf items => rfl
  | cat head tail size ihead itail =>
    obtain ⟨hsize, -, -, -, hhead, htail⟩ := h
    simp only [Rope.size] at hi
    rw [get?, locate, if_pos hi]
    split
    · exact ihead hhead (by assumption)
    · exact itail htail (by omega)
  | slice base start stop ih =>
    obtain ⟨-, hstop, -, -, hbase⟩ := h
    simp only [Rope.size] at hi
    rw [get?, locate, if_pos hi]
    exact ih hbase (by omega)

theorem Valid.stretch_eq (h : r.Valid) (start count : Nat) :
    r.stretch start count = (r.denote.drop start).take count := by
  induction count generalizing start with
  | zero => rfl
  | succ count ih =>
    have hrest := ih (start + 1)
    simp only [stretch] at hrest ⊢
    rw [List.range'_succ, List.filterMap_cons, hrest, h.get?_eq]
    cases hx : r.denote[start]? with
    | none =>
      have hlen : r.denote.length ≤ start := List.getElem?_eq_none_iff.mp hx
      simp [List.drop_eq_nil_of_le, hlen, Nat.le_succ_of_le]
    | some x =>
      obtain ⟨hlt, rfl⟩ := List.getElem?_eq_some_iff.mp hx
      rw [List.drop_eq_getElem_cons hlt, List.take_succ_cons]

theorem Valid.items_eq (h : r.Valid) : r.items = r.denote := by
  rw [items, h.stretch_eq, List.drop_zero, ← h.length_denote, List.take_length]

/-! ## Concatenating -/

theorem denote_eq_nil_of_isEmpty (h : r.Valid) (he : r.isEmpty = true) : r.denote = [] := by
  have hsize : r.size = 0 := by simpa [isEmpty] using he
  exact List.eq_nil_of_length_eq_zero (by rw [h.length_denote, hsize])

theorem size_pos_of_not_isEmpty (he : ¬ r.isEmpty = true) : 0 < r.size := by
  have : r.size ≠ 0 := by simpa [isEmpty] using he
  omega

theorem Valid.append (ha : a.Valid) (hb : b.Valid) (hsize : a.size + b.size < wordSize) :
    (a.append b).Valid := by
  rw [Rope.append]
  split
  · exact hb
  split
  · exact ha
  rw [Nat.mod_eq_of_lt hsize]
  dsimp only
  split
  · trivial
  · next hea heb hlong =>
    exact ⟨rfl, by omega, size_pos_of_not_isEmpty hea, size_pos_of_not_isEmpty heb, ha, hb⟩

theorem denote_append (ha : a.Valid) (hb : b.Valid) :
    (a.append b).denote = a.denote ++ b.denote := by
  rw [Rope.append]
  split
  · next hea => rw [denote_eq_nil_of_isEmpty ha hea, List.nil_append]
  split
  · next heb => rw [denote_eq_nil_of_isEmpty hb heb, List.append_nil]
  dsimp only
  split
  · rw [denote_leaf, ha.items_eq, hb.items_eq]
  · rfl

/-! ## Slicing -/

theorem Valid.view (h : r.Valid) (hlt : start < stop) (hstop : stop ≤ r.size)
    (hlong : copied < stop - start) : (r.view start stop).Valid := by
  cases r with
  | slice base offset last =>
    obtain ⟨hnone, hlast, -, hbase, hvalid⟩ := h
    simp only [size] at hstop
    exact ⟨by omega, by omega, by omega, hbase, hvalid⟩
  | leaf items => exact ⟨hlt, hstop, hlong, rfl, h⟩
  | cat head tail total => exact ⟨hlt, hstop, hlong, rfl, h⟩

theorem denote_view (h : r.Valid) (hstop : stop ≤ r.size) :
    (r.view start stop).denote = (r.denote.take stop).drop start := by
  cases r with
  | slice base offset last =>
    obtain ⟨hnone, hlast, -, -, -⟩ := h
    simp only [size] at hstop
    simp only [Rope.view, denote]
    rw [List.take_drop, List.take_take, List.drop_drop, Nat.min_eq_left (by omega)]
  | leaf items => rfl
  | cat head tail total => rfl

theorem Valid.extract (h : r.Valid) (start stop : Nat) : (r.extract start stop).Valid := by
  rw [Rope.extract]
  split
  · exact h
  split
  · trivial
  split
  · trivial
  · exact h.view (by omega) (by omega) (by omega)

theorem denote_extract (h : r.Valid) (start stop : Nat) :
    (r.extract start stop).denote =
      (r.denote.take (min stop r.size)).drop (min start (min stop r.size)) := by
  rw [Rope.extract]
  split
  · next hwhole =>
    rw [hwhole.1, hwhole.2, List.drop_zero, ← h.length_denote, List.take_length]
  split
  · next hnone =>
    have hnil : (r.denote.take (min stop r.size)).drop (min stop r.size) = [] := by
      rw [List.drop_eq_nil_iff, List.length_take]
      exact Nat.min_le_left _ _
    rw [hnone, hnil]
    rfl
  split
  · rw [denote_leaf, h.stretch_eq, List.drop_take]
  · exact denote_view h (by omega)

end Rope

/-! ## Everything made by concatenating and slicing -/

namespace Sequence

variable {α : Type} {xs ys : Sequence α}

/-- The sequence of items that a sequence with an identity stands for. -/
def denote (xs : Sequence α) : List α := xs.content.denote

/-- What can be made from given items by concatenating, as long as sizes are words, and by
slicing with any bounds. -/
inductive Built : Sequence α → Prop where
  | empty : Built .empty
  | ofList (id : Nat) (items : List α) : Built (.ofList id items)
  | append (id : Nat) {xs ys : Sequence α} (hx : Built xs) (hy : Built ys)
      (hsize : xs.size + ys.size < Rope.wordSize) : Built (xs.append id ys)
  | extract (id : Nat) {xs : Sequence α} (hx : Built xs) (start stop : Nat) :
      Built (xs.extract id start stop)

theorem isEmpty_iff : xs.isEmpty = true ↔ xs.size = 0 := by
  simp only [isEmpty, size, Rope.isEmpty, beq_iff_eq]

@[simp]
theorem denote_ofList (id : Nat) (items : List α) : (ofList id items).denote = items := by
  rw [ofList]
  split
  · next h => rw [List.isEmpty_iff.mp h]; rfl
  · rfl

theorem valid_append (id : Nat) (hx : xs.content.Valid) (hy : ys.content.Valid)
    (hsize : xs.size + ys.size < Rope.wordSize) : (xs.append id ys).content.Valid := by
  rw [append]
  split
  · exact hy
  split
  · exact hx
  · exact hx.append hy hsize

theorem denote_append (id : Nat) (hx : xs.content.Valid) (hy : ys.content.Valid) :
    (xs.append id ys).denote = xs.denote ++ ys.denote := by
  rw [append]
  split
  · next he =>
    have hnil : xs.denote = [] := Rope.denote_eq_nil_of_isEmpty hx he
    rw [hnil, List.nil_append]
  split
  · next he =>
    have hnil : ys.denote = [] := Rope.denote_eq_nil_of_isEmpty hy he
    rw [hnil, List.append_nil]
  · exact Rope.denote_append hx hy

theorem valid_extract (id : Nat) (hx : xs.content.Valid) (start stop : Nat) :
    (xs.extract id start stop).content.Valid := by
  rw [extract]
  split
  · exact hx
  split
  · trivial
  · exact hx.extract _ _

theorem denote_extract (id : Nat) (hx : xs.content.Valid) (start stop : Nat) :
    (xs.extract id start stop).denote =
      (xs.denote.take (min stop xs.size)).drop (min start (min stop xs.size)) := by
  have hlen : xs.denote.length = xs.size := hx.length_denote
  rw [extract]
  split
  · next hwhole => rw [hwhole.1, hwhole.2, List.drop_zero, ← hlen, List.take_length]
  split
  · next hnone =>
    have hnil : (xs.denote.take (min stop xs.size)).drop (min stop xs.size) = [] := by
      rw [List.drop_eq_nil_iff, List.length_take]
      exact Nat.min_le_left _ _
    rw [hnone, hnil]
    rfl
  · have hstop : min (min stop xs.size) xs.content.size = min stop xs.size :=
      Nat.min_eq_left (Nat.min_le_right _ _)
    have hcut := Rope.denote_extract hx (min start (min stop xs.size)) (min stop xs.size)
    rw [hstop, Nat.min_eq_left (Nat.min_le_right _ _)] at hcut
    exact hcut

theorem Built.valid (h : Built xs) : xs.content.Valid := by
  induction h with
  | empty => trivial
  | ofList id items =>
    rw [Sequence.ofList]
    split <;> trivial
  | append id hx hy hsize ihx ihy => exact valid_append id ihx ihy hsize
  | extract id hx start stop ih => exact valid_extract id ih start stop

theorem Built.length_denote (h : Built xs) : xs.denote.length = xs.size := h.valid.length_denote

/-- Whatever is made without items is the one empty sequence. -/
theorem Built.eq_empty (h : Built xs) (hsize : xs.size = 0) : xs = .empty := by
  have hnil : xs.denote = [] := List.eq_nil_of_length_eq_zero (by rw [h.length_denote, hsize])
  induction h with
  | empty => rfl
  | ofList id items =>
    rw [denote_ofList] at hnil
    rw [hnil]
    rfl
  | @append id xs ys hx hy hlt ihx ihy =>
    rw [denote_append id hx.valid hy.valid, List.append_eq_nil_iff] at hnil
    have hxs : xs.size = 0 := by rw [← hx.length_denote, hnil.1]; rfl
    have hys : ys.size = 0 := by rw [← hy.length_denote, hnil.2]; rfl
    rw [Sequence.append, if_pos (isEmpty_iff.mpr hxs)]
    exact ihy hys hnil.2
  | @extract id xs hx start stop ih =>
    rw [Sequence.extract] at hsize ⊢
    split
    · next hwhole =>
      rw [if_pos hwhole] at hsize
      exact ih hsize (List.eq_nil_of_length_eq_zero (by rw [hx.length_denote, hsize]))
    split
    · rfl
    · next hwhole hsome =>
      have hlen := congrArg List.length (denote_extract id hx.valid start stop)
      rw [hnil, List.length_drop, List.length_take, hx.length_denote, List.length_nil] at hlen
      omega

end Sequence

namespace Value

open Sequence

variable {xs : Sequence Value}

theorem item_eq (h : xs.content.Valid) (i : Nat) : item xs i = xs.denote[i]?.getD .void := by
  rw [item, Sequence.get?, h.get?_eq]
  rfl

/-- Reading a list item by item gives its sequence. -/
theorem map_item_range (h : xs.content.Valid) :
    (List.range xs.size).map (item xs) = xs.denote := by
  have hlen : xs.denote.length = xs.size := h.length_denote
  apply List.ext_getElem
  · rw [List.length_map, List.length_range, hlen]
  · intro i hi hi'
    rw [List.getElem_map, List.getElem_range, item_eq h, List.getElem?_eq_getElem hi']
    rfl

/-- Lists refine sequences. Of a list made from given values by concatenating and slicing: every
node is as it should be, and if there are no items, it is the one empty list; its size is the
number of its items; reading at an index gives the item of that number, or void if there is none,
and ends inside a stored array; all ways to read the whole list give its items; and concatenating
it with another, or slicing it, does that to the items. -/
theorem lists_refine_sequences (h : Built xs) :
    xs.content.Valid ∧ (xs.size = 0 → xs = .empty) ∧ xs.denote.length = xs.size ∧
    (∀ i, item xs i = xs.denote[i]?.getD .void) ∧
    (∀ i, i < xs.size → (xs.content.locate i).2 < (xs.content.locate i).1.size ∧
      xs.get? i = (xs.content.locate i).1[(xs.content.locate i).2]?) ∧
    (List.range xs.size).map (item xs) = xs.denote ∧ xs.items = xs.denote ∧
    (∀ (id : Nat) (ys : Sequence Value), Built ys → xs.size + ys.size < Rope.wordSize →
      (xs.append id ys).denote = xs.denote ++ ys.denote) ∧
    (∀ id start stop : Nat, (xs.extract id start stop).denote =
      (xs.denote.take (min stop xs.size)).drop (min start (min stop xs.size))) ∧
    (∀ (id : Nat) (items : List Value), (ofList id items).denote = items) := by
  have hvalid := h.valid
  refine ⟨hvalid, h.eq_empty, h.length_denote, item_eq hvalid, ?_, map_item_range hvalid,
    hvalid.items_eq, ?_, ?_, denote_ofList⟩
  · intro i hi
    exact ⟨hvalid.locate_lt hi, hvalid.get?_eq_locate hi⟩
  · intro id ys hy _
    exact denote_append id hvalid hy.valid
  · intro id start stop
    exact denote_extract id hvalid start stop

/-- The last eleven of twelve items, cut from a concatenation: a slice of a node with two parts. -/
theorem lists_refine_sequences_slice :
    let left := ofList 1 (List.replicate 6 (Value.bool true))
    let right := ofList 2 (List.replicate 6 Value.void)
    let cut := (left.append 3 right).extract 4 1 40
    Built cut ∧ cut.size = 11 ∧ cut.denote.length = 11 ∧
      item cut 4 = .bool true ∧ item cut 5 = .void := by
  intro left right cut
  have hleft : Built left := .ofList 1 _
  have hright : Built right := .ofList 2 _
  have hjoined : Built (left.append 3 right) := .append 3 hleft hright (by decide)
  have hcut : Built cut := .extract 4 hjoined 1 40
  obtain ⟨-, -, hlen, hitem, -⟩ := lists_refine_sequences hcut
  have happend : (left.append 3 right).denote =
      List.replicate 6 (.bool true) ++ List.replicate 6 .void := by
    rw [denote_append 3 hleft.valid hright.valid, denote_ofList, denote_ofList]
  have hdenote : cut.denote = List.replicate 5 (.bool true) ++ List.replicate 6 .void := by
    rw [denote_extract 4 hjoined.valid, ← hjoined.length_denote, happend]
    rfl
  have hlength : cut.denote.length = 11 := by rw [hdenote]; rfl
  refine ⟨hcut, hlen.symm.trans hlength, hlength, ?_, ?_⟩
  · rw [hitem, hdenote]; rfl
  · rw [hitem, hdenote]; rfl

end Value

end Clausal
