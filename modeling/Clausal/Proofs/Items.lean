import Clausal.Proofs.WellFormed

/-!
# The items of a rope

What a rope of any shape stands for is `Rope.items`. Of sound ropes, however long they are, the
walk to an index finds the item of that number (`Rope.Sound.get?_eq`), and the two operations are
functions of the items and their numbers alone: `Rope.Sound.items_append`,
`Rope.Sound.items_extract`. A concatenation longer than a word can say has lost the items that its
size does not count; which ones is a matter of the two sizes (`Rope.joinedSize`).
-/

namespace Clausal

namespace Rope

variable {α : Type} {r a b : Rope α} {i start stop count : Nat}

/-! ## Finding items -/

theorem get?_eq_none (h : r.size ≤ i) : r.get? i = none := by
  cases r with
  | leaf items => exact Array.getElem?_eq_none h
  | cat head tail size => exact if_neg (Nat.not_lt.mpr h)
  | slice base start stop => exact if_neg (Nat.not_lt.mpr h)

/-- There is an item at every index below the size. -/
theorem Sound.exists_get? (h : r.Sound) (hi : i < r.size) : ∃ x, r.get? i = some x := by
  induction r generalizing i with
  | leaf items => exact ⟨_, Array.getElem?_eq_getElem hi⟩
  | cat head tail size ihead itail =>
    obtain ⟨hsize, -, -, -, hhead, htail⟩ := h
    have hle : size ≤ head.size + tail.size := hsize ▸ Nat.mod_le _ _
    simp only [Rope.size] at hi
    rw [get?, if_pos hi]
    split
    · exact ihead hhead (by assumption)
    · exact itail htail (by omega)
  | slice base start stop ih =>
    obtain ⟨-, hstop, -, -, hbase⟩ := h
    simp only [Rope.size] at hi
    rw [get?, if_pos hi]
    exact ih hbase (by omega)

theorem Sound.stretch_succ (h : r.Sound) (hstart : start < r.size) (count : Nat) :
    ∃ x, r.get? start = some x ∧
      r.stretch start (count + 1) = x :: r.stretch (start + 1) count := by
  obtain ⟨x, hx⟩ := h.exists_get? hstart
  refine ⟨x, hx, ?_⟩
  rw [stretch, List.range'_succ, List.filterMap_cons, hx]
  rfl

theorem Sound.length_stretch (h : r.Sound) (hcount : start + count ≤ r.size) :
    (r.stretch start count).length = count := by
  induction count generalizing start with
  | zero => rfl
  | succ count ih =>
    obtain ⟨x, -, hx⟩ := h.stretch_succ (show start < r.size by omega) count
    rw [hx, List.length_cons, ih (by omega)]

theorem Sound.getElem?_stretch (h : r.Sound) (hcount : start + count ≤ r.size) (hi : i < count) :
    (r.stretch start count)[i]? = r.get? (start + i) := by
  induction count generalizing start i with
  | zero => omega
  | succ count ih =>
    obtain ⟨x, hx, hstretch⟩ := h.stretch_succ (show start < r.size by omega) count
    rw [hstretch]
    cases i with
    | zero => rw [List.getElem?_cons_zero, Nat.add_zero, hx]
    | succ i =>
      rw [List.getElem?_cons_succ, ih (by omega) (by omega), Nat.add_assoc, Nat.add_comm 1]

@[simp]
theorem Sound.length_items (h : r.Sound) : r.items.length = r.size :=
  h.length_stretch (by omega)

/-- The walk to an index finds the item of that number. -/
theorem Sound.get?_eq (h : r.Sound) (i : Nat) : r.get? i = r.items[i]? := by
  by_cases hi : i < r.size
  · have hitem := h.getElem?_stretch (show 0 + r.size ≤ r.size by omega) hi
    rw [items, hitem, Nat.zero_add]
  · rw [get?_eq_none (by omega), List.getElem?_eq_none (by rw [h.length_items]; omega)]

theorem Sound.items_eq_nil (h : r.Sound) (hsize : r.size = 0) : r.items = [] :=
  List.eq_nil_of_length_eq_zero (h.length_items.trans hsize)

@[simp]
theorem items_leaf (items : Array α) : (leaf items).items = items.toList := by
  apply List.ext_getElem?
  intro i
  rw [← Sound.get?_eq (r := leaf items) trivial i, get?, Array.getElem?_toList]

theorem Sound.stretch_eq (h : r.Sound) (start count : Nat) :
    r.stretch start count = (r.items.drop start).take count := by
  -- finding an item is finding it in an array of the items
  have hget : r.get? = (leaf r.items.toArray).get? := by
    funext i
    rw [h.get?_eq, get?, List.getElem?_toArray]
  have hleaf : (leaf r.items.toArray).Valid := trivial
  rw [stretch, hget, ← stretch, hleaf.stretch_eq, denote_leaf]

/-! ## Concatenating -/

/-- How many items there are in the concatenation of sequences of these sizes. -/
def joinedSize (m n : Nat) : Nat :=
  if m = 0 ∨ n = 0 ∨ (m + n) % wordSize ≤ copied then m + n else (m + n) % wordSize

theorem Sound.items_cat {size : Nat} (h : (cat a b size).Sound) :
    (cat a b size).items = (a.items ++ b.items).take size := by
  have hget := h.get?_eq
  obtain ⟨-, -, -, -, ha, hb⟩ := h
  apply List.ext_getElem?
  intro i
  rw [← hget, get?, List.getElem?_take]
  split
  · split
    · rw [ha.get?_eq, List.getElem?_append_left (by rw [ha.length_items]; assumption)]
    · rw [hb.get?_eq, List.getElem?_append_right (by rw [ha.length_items]; omega), ha.length_items]
  · rfl

theorem Sound.items_append (ha : a.Sound) (hb : b.Sound) :
    (a.append b).items = (a.items ++ b.items).take (joinedSize a.size b.size) := by
  have hall : (a.items ++ b.items).take (a.size + b.size) = a.items ++ b.items := by
    rw [List.take_of_length_le]
    simp [ha, hb]
  have happend := ha.append hb
  rw [Rope.append] at happend ⊢
  rw [joinedSize]
  by_cases hea : a.size = 0
  · have hempty : a.isEmpty = true := by simp [isEmpty, hea]
    rw [if_pos hempty, if_pos (.inl hea), hall, ha.items_eq_nil hea, List.nil_append]
  by_cases heb : b.size = 0
  · have hempty : b.isEmpty = true := by simp [isEmpty, heb]
    have hsome : ¬ a.isEmpty = true := by simp [isEmpty, hea]
    rw [if_neg hsome, if_pos hempty, if_pos (.inr (.inl heb)), hall, hb.items_eq_nil heb,
      List.append_nil]
  have hsome : ¬ a.isEmpty = true := by simp [isEmpty, hea]
  have hsome' : ¬ b.isEmpty = true := by simp [isEmpty, heb]
  rw [if_neg hsome, if_neg hsome'] at happend ⊢
  dsimp only at happend ⊢
  by_cases hshort : (a.size + b.size) % wordSize ≤ copied
  · rw [if_pos hshort, if_pos (.inr (.inr hshort)), hall, items_leaf]
  · rw [if_neg hshort] at happend ⊢
    rw [if_neg (by simp [hea, heb, hshort]), happend.items_cat]

/-! ## Slicing -/

theorem get?_view (hstop : stop ≤ r.size) (i : Nat) :
    (r.view start stop).get? i = if i < stop - start then r.get? (start + i) else none := by
  cases r with
  | slice base offset last =>
    simp only [size] at hstop
    simp only [view, get?]
    by_cases hi : i < stop - start
    · rw [if_pos (by omega), if_pos hi, if_pos (by omega), Nat.add_assoc]
    · rw [if_neg (by omega), if_neg hi]
  | leaf items => rfl
  | cat head tail total => rfl

theorem Sound.items_view (h : r.Sound) (hlt : start < stop) (hstop : stop ≤ r.size)
    (hlong : copied < stop - start) :
    (r.view start stop).items = (r.items.take stop).drop start := by
  apply List.ext_getElem?
  intro i
  rw [← (h.view hlt hstop hlong).get?_eq, get?_view hstop, List.getElem?_drop, List.getElem?_take]
  by_cases hi : i < stop - start
  · rw [if_pos hi, if_pos (by omega), h.get?_eq]
  · rw [if_neg hi, if_neg (by omega)]

theorem Sound.items_extract (h : r.Sound) (start stop : Nat) :
    (r.extract start stop).items =
      (r.items.take (min stop r.size)).drop (min start (min stop r.size)) := by
  rw [Rope.extract]
  split
  · next hwhole =>
    rw [hwhole.1, hwhole.2, List.drop_zero, List.take_of_length_le (by simp [h])]
  split
  · next hnone =>
    rw [hnone, List.drop_eq_nil_of_le (by rw [List.length_take]; omega), empty, items_leaf]
  split
  · rw [items_leaf, h.stretch_eq, List.drop_take]
  · exact h.items_view (by omega) (by omega) (by omega)

end Rope

/-! ## Sequences with an identity -/

namespace Sequence

variable {α : Type} {xs ys : Sequence α}

/-- Whether or not the identity is new, the content is that of the ropes joined. -/
theorem content_append (id : Nat) (xs ys : Sequence α) :
    (xs.append id ys).content = xs.content.append ys.content := by
  unfold append
  split
  · next h => exact (if_pos h).symm
  split
  · next h h' => exact ((if_neg h).trans (if_pos h')).symm
  · rfl

theorem content_extract (id : Nat) (xs : Sequence α) (start stop : Nat) :
    (xs.extract id start stop).content = xs.content.extract start stop := by
  unfold extract
  dsimp only
  split
  · next h => exact (if_pos h).symm
  split
  · next h h' => exact ((if_neg h).trans (if_pos h')).symm
  · -- cutting the bounds to the size a second time changes nothing
    simp only [Rope.extract, size, Nat.min_eq_left (Nat.min_le_right _ _)]

theorem items_append (id : Nat) (hx : xs.content.Sound) (hy : ys.content.Sound) :
    (xs.append id ys).items = (xs.items ++ ys.items).take (Rope.joinedSize xs.size ys.size) := by
  rw [items, content_append, hx.items_append hy]
  rfl

/-- As long as a word can say how long it is, a concatenation has all items of both. -/
theorem items_append_of_lt (id : Nat) (hx : xs.content.Sound) (hy : ys.content.Sound)
    (hword : xs.size + ys.size < Rope.wordSize) :
    (xs.append id ys).items = xs.items ++ ys.items := by
  have hsize : Rope.joinedSize xs.size ys.size = xs.size + ys.size := by
    rw [Rope.joinedSize, Nat.mod_eq_of_lt hword, ite_self]
  rw [items_append id hx hy, hsize, List.take_of_length_le]
  rw [List.length_append, items, items, hx.length_items, hy.length_items]
  exact Nat.le_refl _

theorem items_extract (id : Nat) (hx : xs.content.Sound) (start stop : Nat) :
    (xs.extract id start stop).items =
      (xs.items.take (min stop xs.size)).drop (min start (min stop xs.size)) := by
  rw [items, content_extract, hx.items_extract]
  rfl

theorem items_ofList (id : Nat) (items : List α) : (ofList id items).items = items := by
  unfold ofList
  split
  · next h => rw [List.isEmpty_iff.mp h]; rfl
  · exact Rope.items_leaf _

end Sequence

theorem Value.item_eq_getElem? {xs : Sequence Value} (h : xs.content.Sound) (i : Nat) :
    Value.item xs i = xs.items[i]?.getD .void := by
  rw [Value.item, Sequence.get?, h.get?_eq]
  rfl

end Clausal
