import Mathlib.Data.List.Perm.Subperm
import Clausal.Proofs.Alike
import Clausal.Proofs.Merge

/-!
# Equality of values

Comparing two values in the other order turns the answer around (`Value.compare_swap`). For numbers
and strings that is a law of their order. Two maps are compared from the first to the second only:
as many entries, and every entry of the first has an equal one in the second. With distinct keys
that leaves no key of the second out (`Dict.covers_iff`), so it comes to having the same keys and
equal values under them, which is the same from both sides.

So equality is symmetric. It is transitive between values of one heap (`Value.equal_trans`): a list
or a map may equal another by its identity alone, with a not-a-number in it, and then the two have
one content. It is reflexive where there is no not-a-number, and it does not see how a list is
built, which identities there are, or in which order a map has its entries
(`Value.SameContents.equal`).
-/

namespace Clausal

open List (Forall₂)
open Float.Model (UnpackedFloat)

/-! ## Entries in any order -/

namespace Dict

variable {α : Type} {a b c : Dict α} {k : UInt64}

/-- The same keys, and related values under each of them. -/
structure Agrees (R : α → α → Prop) (a b : Dict α) : Prop where
  keys : ∀ k, a.contains k = b.contains k
  values : ∀ k v w, a.find? k = some v → b.find? k = some w → R v w

theorem contains_iff_exists : a.contains k = true ↔ ∃ v, a.find? k = some v := by
  rw [← isSome_find?, Option.isSome_iff_exists]

theorem mem_entries_of_find? {v : α} (h : a.find? k = some v) : (k, v) ∈ a.entries := by
  obtain ⟨before, after, hentries, -⟩ := List.lookup_eq_some_iff.mp h
  rw [hentries]
  simp

theorem Agrees.swap {R S : α → α → Prop} (h : Agrees R a b)
    (hS : ∀ v ∈ a.values, ∀ w ∈ b.values, R v w → S w v) : Agrees S b a := by
  refine ⟨fun k => (h.keys k).symm, fun k w v hw hv => ?_⟩
  exact hS v (mem_values_of_find? hv) w (mem_values_of_find? hw) (h.values k v w hv hw)

theorem Agrees.trans {R S T : α → α → Prop} (h : Agrees R a b) (h' : Agrees S b c)
    (hT : ∀ v ∈ a.values, ∀ x ∈ b.values, ∀ w ∈ c.values, R v x → S x w → T v w) :
    Agrees T a c := by
  refine ⟨fun k => (h.keys k).trans (h'.keys k), fun k v w hv hw => ?_⟩
  obtain ⟨x, hx⟩ : ∃ x, b.find? k = some x := by
    rw [← contains_iff_exists, ← h.keys, contains_iff_exists]
    exact ⟨v, hv⟩
  exact hT v (mem_values_of_find? hv) x (mem_values_of_find? hx) w (mem_values_of_find? hw)
    (h.values k v x hv hx) (h'.values k x w hx hw)

/-- Distinct keys that are all in another dictionary of the same size are all keys of it. -/
theorem perm_keys_of_subset (ha : a.keys.Nodup) (hsize : a.size = b.size) (h : a.keys ⊆ b.keys) :
    a.keys.Perm b.keys := by
  have hlength : b.keys.length ≤ a.keys.length := by
    simp only [keys, List.length_map, size] at hsize ⊢
    omega
  exact (List.subperm_of_subset ha h).perm_of_length_le hlength

theorem perm_keys_of_contains (ha : a.keys.Nodup) (hb : b.keys.Nodup)
    (h : ∀ k, a.contains k = b.contains k) : a.keys.Perm b.keys := by
  refine (List.perm_ext_iff_of_nodup ha hb).mpr fun k => ?_
  rw [← contains_iff, ← contains_iff, h]

/-- Looking up every entry of the first in the second settles both: with distinct keys, none of the
second is left out. -/
theorem covers_iff {R : Value → Value → Prop} {a b : Dict Value} (ha : a.keys.Nodup)
    (hb : b.keys.Nodup) :
    (a.size = b.size ∧ ∀ e ∈ a.entries, ∃ w, b.find? e.1 = some w ∧ R w e.2) ↔
      Agrees (fun v w => R w v) a b := by
  constructor
  · rintro ⟨hsize, hentries⟩
    have hsubset : a.keys ⊆ b.keys := by
      intro k hk
      obtain ⟨e, he, rfl⟩ := List.mem_map.mp hk
      obtain ⟨w, hw, -⟩ := hentries e he
      exact contains_iff.mp (contains_iff_exists.mpr ⟨w, hw⟩)
    have hperm := perm_keys_of_subset ha hsize hsubset
    refine ⟨fun k => ?_, fun k v w hv hw => ?_⟩
    · rw [Bool.eq_iff_iff, contains_iff, contains_iff, hperm.mem_iff]
    · obtain ⟨w', hw', hR⟩ := hentries (k, v) (mem_entries_of_find? hv)
      rw [hw] at hw'
      cases hw'
      exact hR
  · intro h
    have hperm := perm_keys_of_contains ha hb h.keys
    refine ⟨by simpa [keys, size] using hperm.length_eq, fun e he => ?_⟩
    have hfind : a.find? e.1 = some e.2 := Value.lookup_of_mem ha he
    obtain ⟨w, hw⟩ : ∃ w, b.find? e.1 = some w := by
      rw [← contains_iff_exists, ← h.keys, contains_iff_exists]
      exact ⟨_, hfind⟩
    exact ⟨w, hw, h.values _ _ _ hfind hw⟩

end Dict

namespace Value

/-! ## Lists, item by item -/

theorem forall₂_swap {R S : Value → Value → Prop} {xs ys : List Value} (h : Forall₂ R xs ys)
    (hS : ∀ x ∈ xs, ∀ y ∈ ys, R x y → S y x) : Forall₂ S ys xs := by
  induction h with
  | nil => exact .nil
  | @cons x y xs ys hxy _ ih =>
    refine .cons (hS x (by simp) y (by simp) hxy) (ih ?_)
    exact fun x hx y hy => hS x (by simp [hx]) y (by simp [hy])

theorem forall₂_trans {R S T : Value → Value → Prop} {xs ys zs : List Value} (h : Forall₂ R xs ys)
    (h' : Forall₂ S ys zs)
    (hT : ∀ x ∈ xs, ∀ y ∈ ys, ∀ z ∈ zs, R x y → S y z → T x z) : Forall₂ T xs zs := by
  induction h generalizing zs with
  | nil => cases h'; exact .nil
  | @cons x y xs ys hxy _ ih =>
    cases h' with
    | @cons _ z _ zs hyz h' =>
      refine .cons (hT x (by simp) y (by simp) z (by simp) hxy hyz) (ih h' ?_)
      exact fun x hx y hy z hz => hT x (by simp [hx]) y (by simp [hy]) z (by simp [hz])

/-! ## Numbers and strings -/

theorem compare_unpacked_swap (x y : UnpackedFloat) :
    y.compare x = (x.compare y).map Ordering.swap := by
  have hfinite (e e' : Int) (m m' : Nat) :
      (Ord.compare e' e).then (Ord.compare m' m) =
        ((Ord.compare e e').then (Ord.compare m m')).swap := by
    rw [Ordering.swap_then, ← Std.OrientedCmp.eq_swap, ← Std.OrientedCmp.eq_swap]
  cases x with
  | notANumber =>
    cases y with
    | infinity s' => cases s' <;> rfl
    | finite s' m' e' _ => cases s' <;> rfl
    | _ => rfl
  | infinity s =>
    cases y with
    | infinity s' => cases s <;> cases s' <;> rfl
    | _ => cases s <;> rfl
  | zero s =>
    cases y with
    | infinity s' => cases s' <;> rfl
    | finite s' m e _ => cases s' <;> rfl
    | _ => rfl
  | finite s m e _ =>
    cases y with
    | infinity s' => cases s' <;> rfl
    | finite s' m' e' _ =>
      cases s <;> cases s'
      case negative.negative =>
        exact congrArg (fun o : Ordering => some o.swap) (hfinite e e' m m')
      case positive.positive => exact congrArg some (hfinite e e' m m')
      all_goals rfl
    | _ => cases s <;> rfl

/-- Equal numbers are the same or both zero. -/
theorem eq_or_zero_of_compare_unpacked {x y : UnpackedFloat} (h : x.compare y = some .eq) :
    x = y ∨ ∃ s s', x = .zero s ∧ y = .zero s' := by
  cases x with
  | notANumber => cases y <;> cases h
  | infinity s =>
    cases y with
    | infinity s' => cases s <;> cases s' <;> first | exact .inl rfl | cases h
    | _ => cases s <;> cases h
  | zero s =>
    cases y with
    | notANumber => cases h
    | infinity s' => cases s' <;> cases h
    | finite s' m e _ => cases s' <;> cases h
    | zero s' => exact .inr ⟨s, s', rfl, rfl⟩
  | finite s m e _ =>
    cases y with
    | infinity s' => cases s' <;> cases h
    | finite s' m' e' _ =>
      have hsame (h : (Ord.compare e e').then (Ord.compare m m') = .eq) : e = e' ∧ m = m' := by
        simpa [Ordering.then_eq_eq] using h
      cases s <;> cases s'
      case negative.negative =>
        obtain ⟨rfl, rfl⟩ := hsame (Ordering.swap_eq_eq.mp (Option.some.inj h))
        exact .inl rfl
      case positive.positive =>
        obtain ⟨rfl, rfl⟩ := hsame (Option.some.inj h)
        exact .inl rfl
      all_goals cases h
    | _ => cases s <;> cases h

theorem compareNumbers_eq (x y : Float) :
    compareNumbers x y = x.toModel.unpack.compare y.toModel.unpack := by
  have hlt (x y : Float) : x < y ↔ x.toModel.unpack.compare y.toModel.unpack = some .lt := by
    show decide (x.toModel < y.toModel) = true ↔ _
    rw [decide_eq_true_iff]
    exact beq_iff_eq
  have heq : (x == y) = true ↔ x.toModel.unpack.compare y.toModel.unpack = some .eq := by
    show (x.toModel.unpack.compare y.toModel.unpack == some .eq) = true ↔ _
    rw [beq_iff_eq]
  have hswap := compare_unpacked_swap x.toModel.unpack y.toModel.unpack
  simp only [compareNumbers, hlt, heq, hswap]
  generalize x.toModel.unpack.compare y.toModel.unpack = o
  rcases o with _ | _ | _ | _ <;> rfl

theorem compareNumbers_swap (x y : Float) :
    compareNumbers y x = (compareNumbers x y).map Ordering.swap := by
  rw [compareNumbers_eq, compareNumbers_eq, compare_unpacked_swap]

theorem compareNumbers_trans {x y z : Float} (h : compareNumbers x y = some .eq)
    (h' : compareNumbers y z = some .eq) : compareNumbers x z = some .eq := by
  rw [compareNumbers_eq] at h h' ⊢
  rcases eq_or_zero_of_compare_unpacked h with heq | ⟨s, s', hx, hy⟩
  · rw [heq, h']
  · rw [hx, ← h', hy]
    cases z.toModel.unpack with
    | infinity sign => cases sign <;> rfl
    | finite sign _ _ _ => cases sign <;> rfl
    | _ => rfl

theorem compareTexts_eq_iff {s t : String} : compareTexts s t = .eq ↔ s = t := by
  unfold compareTexts
  grind

theorem compareTexts_swap (s t : String) : compareTexts t s = (compareTexts s t).swap := by
  unfold compareTexts
  by_cases hlt : s < t
  · grind [String.lt_asymm hlt, Ordering.swap]
  · by_cases heq : s = t
    · simp [heq]
    · grind [Ordering.swap]

/-! ## Values with distinct keys -/

/-- All maps in a value, to any depth, have distinct keys. Lists are sound, so that a list is what
its items are; items that are stored and not shown do not matter. -/
inductive DistinctKeys : Value → Prop
  | plain {v : Value} (h : v.isPlain = true) : DistinctKeys v
  | list {xs : Sequence Value} (hsound : xs.content.Sound)
      (hitems : ∀ x ∈ xs.items, DistinctKeys x) : DistinctKeys (.list xs)
  | map {t : Table Value} (hkeys : t.content.keys.Nodup)
      (hvalues : ∀ v ∈ t.content.values, DistinctKeys v) : DistinctKeys (.map t)

theorem WellFormed.distinctKeys {v : Value} (h : v.WellFormed) : v.DistinctKeys := by
  induction h with
  | plain h => exact .plain h
  | list hsound _ ih =>
    exact .list hsound fun x hx => ih x (Rope.mem_stored_of_mem_stretch hx)
  | map hkeys _ ih => exact .map hkeys ih

namespace DistinctKeys

variable {xs : Sequence Value} {t : Table Value}

theorem sound (h : DistinctKeys (.list xs)) : xs.content.Sound := by
  cases h with
  | plain h => cases h
  | list hsound _ => exact hsound

theorem items (h : DistinctKeys (.list xs)) : ∀ x ∈ xs.items, x.DistinctKeys := by
  cases h with
  | plain h => cases h
  | list _ hitems => exact hitems

theorem nodup_keys (h : DistinctKeys (.map t)) : t.content.keys.Nodup := by
  cases h with
  | plain h => cases h
  | map hkeys _ => exact hkeys

theorem values (h : DistinctKeys (.map t)) : ∀ v ∈ t.content.values, v.DistinctKeys := by
  cases h with
  | plain h => cases h
  | map _ hvalues => exact hvalues

end DistinctKeys

theorem LivesIn.items {w : Heap} {xs : Sequence Value} (h : LivesIn w (.list xs)) :
    ∀ x ∈ xs.items, x.LivesIn w :=
  fun x hx => h.stored x (Rope.mem_stored_of_mem_stretch hx)

theorem LivesIn.items_eq {w : Heap} {xs ys : Sequence Value} (hx : LivesIn w (.list xs))
    (hy : LivesIn w (.list ys)) (hid : xs.id = ys.id) : xs.items = ys.items := by
  rw [Sequence.items, Sequence.items, hx.content_eq hy hid]

/-! ## Equal lists and maps -/

variable {a b c : Value} {xs ys : Sequence Value} {t u : Table Value}

theorem equal_iff : a.equal b = true ↔ a.compare b = some .eq := by
  rw [equal, beq_iff_eq]

theorem type_eq_of_equal (h : a.equal b = true) : a.type = b.type := by
  by_contra htype
  rw [equal_iff, compare_eq_none htype] at h
  cases h

theorem equal_of_compare {r : Bool} (h : a.compare b = equalOrNone r) : a.equal b = r := by
  rw [equal, h]
  cases r <;> rfl

theorem equal_list_iff (hx : DistinctKeys (.list xs)) (hy : DistinctKeys (.list ys)) :
    equal (.list xs) (.list ys) = true ↔
      xs.id = ys.id ∨ Forall₂ (fun x y => x.equal y = true) xs.items ys.items := by
  obtain ⟨r, hr, hiff⟩ := compare_list hx.sound hy.sound
  rw [equal_of_compare hr, hiff]
  simp only [equal_iff]

/-- The values of the second map are compared with those of the first. -/
theorem equal_map_iff_flipped (ht : DistinctKeys (.map t)) (hu : DistinctKeys (.map u)) :
    equal (.map t) (.map u) = true ↔
      t.id = u.id ∨ t.content.Agrees (fun v w => w.equal v = true) u.content := by
  obtain ⟨r, hr, hiff⟩ := compare_map t u
  rw [equal_of_compare hr, hiff, ← Dict.covers_iff ht.nodup_keys hu.nodup_keys]
  simp only [equal_iff]

/-! ## Symmetry -/

theorem swap_equalOrNone (r : Bool) : (equalOrNone r).map Ordering.swap = equalOrNone r := by
  cases r <;> rfl

/-- Where being equal is all there is, there is nothing to turn around. -/
theorem compare_swap_of_equal {r r' : Bool} (h : a.compare b = equalOrNone r)
    (h' : b.compare a = equalOrNone r') (hequal : b.equal a = a.equal b) :
    b.compare a = (a.compare b).map Ordering.swap := by
  rw [equal_of_compare h, equal_of_compare h'] at hequal
  rw [h, h', hequal, swap_equalOrNone]

theorem compare_swap_of_plain (ha : a.isPlain = true) (htype : a.type = b.type) :
    b.compare a = (a.compare b).map Ordering.swap := by
  cases a <;> cases ha <;> cases b <;> cases htype <;> simp only [compare, swap_equalOrNone]
  · rfl
  · exact compareNumbers_swap _ _
  · rw [Bool.beq_comm]
  · rw [compareTexts_swap, Option.map_some]
  · rw [BEq.comm]

theorem equal_eq_of_swap (h : b.compare a = (a.compare b).map Ordering.swap) :
    b.equal a = a.equal b := by
  rw [equal, equal, h]
  rcases a.compare b with _ | _ | _ | _ <;> rfl

/-- Comparing in the other order turns the answer around. -/
theorem compare_swap (ha : a.DistinctKeys) (hb : b.DistinctKeys) :
    b.compare a = (a.compare b).map Ordering.swap := by
  induction ha generalizing b with
  | @plain a hplain =>
    by_cases htype : a.type = b.type
    · exact compare_swap_of_plain hplain htype
    · rw [compare_eq_none htype, compare_eq_none (Ne.symm htype)]
      rfl
  | @list xs hsound hitems ih =>
    have ha := DistinctKeys.list hsound hitems
    cases b with
    | list ys =>
      have hcomm : ∀ x ∈ xs.items, ∀ y ∈ ys.items, y.equal x = x.equal y :=
        fun x hx y hy => equal_eq_of_swap (ih x hx (hb.items y hy))
      have hequal : equal (.list ys) (.list xs) = equal (.list xs) (.list ys) := by
        rw [Bool.eq_iff_iff, equal_list_iff hb ha, equal_list_iff ha hb]
        refine or_congr eq_comm ⟨fun h => ?_, fun h => ?_⟩
        · exact forall₂_swap h fun y hy x hx heq => (hcomm x hx y hy).symm.trans heq
        · exact forall₂_swap h fun x hx y hy heq => (hcomm x hx y hy).trans heq
      obtain ⟨r, hr, -⟩ := compare_list ha.sound hb.sound
      obtain ⟨r', hr', -⟩ := compare_list hb.sound ha.sound
      exact compare_swap_of_equal hr hr' hequal
    | _ => simp [compare]
  | @map t hkeys hvalues ih =>
    have ha := DistinctKeys.map hkeys hvalues
    cases b with
    | map u =>
      have hcomm : ∀ v ∈ t.content.values, ∀ w ∈ u.content.values, w.equal v = v.equal w :=
        fun v hv w hw => equal_eq_of_swap (ih v hv (hb.values w hw))
      have hequal : equal (.map u) (.map t) = equal (.map t) (.map u) := by
        rw [Bool.eq_iff_iff, equal_map_iff_flipped hb ha, equal_map_iff_flipped ha hb]
        refine or_congr eq_comm ⟨fun h => ?_, fun h => ?_⟩
        · exact h.swap fun w hw v hv heq => (hcomm v hv w hw).trans heq
        · exact h.swap fun v hv w hw heq => (hcomm v hv w hw).symm.trans heq
      obtain ⟨r, hr, -⟩ := compare_map t u
      obtain ⟨r', hr', -⟩ := compare_map u t
      exact compare_swap_of_equal hr hr' hequal
    | _ => simp [compare]

theorem equal_comm (ha : a.DistinctKeys) (hb : b.DistinctKeys) : a.equal b = b.equal a :=
  (equal_eq_of_swap (compare_swap ha hb)).symm

/-- Two maps are equal when they have one identity, or the same keys and equal values. -/
theorem equal_map_iff (ht : DistinctKeys (.map t)) (hu : DistinctKeys (.map u)) :
    equal (.map t) (.map u) = true ↔
      t.id = u.id ∨ t.content.Agrees (fun v w => v.equal w = true) u.content := by
  rw [equal_comm ht hu, equal_map_iff_flipped hu ht]
  refine or_congr eq_comm ⟨fun h => h.swap ?_, fun h => h.swap ?_⟩ <;>
    exact fun _ _ _ _ heq => heq

/-! ## Transitivity -/

variable {z : Heap}

theorem equal_trans_of_plain (ha : a.isPlain = true) (h : a.equal b = true)
    (h' : b.equal c = true) : a.equal c = true := by
  have htype := type_eq_of_equal h
  have htype' := type_eq_of_equal h'
  rw [equal_iff] at h h' ⊢
  cases a <;> cases ha <;> cases b <;> cases htype <;> cases c <;> cases htype' <;>
    simp only [compare, equalOrNone, beq_iff_eq, Option.some.injEq, Option.ite_none_right_eq_some,
      and_true] at h h' ⊢
  · exact compareNumbers_trans h h'
  · exact h.trans h'
  · rw [compareTexts_eq_iff] at h h' ⊢
    exact h.trans h'
  · exact h.trans h'

/-- One identity or related contents: transitive where an identity is that of one content. -/
theorem same_or_trans {κ : Type} {R : κ → κ → Prop} {i j k : Nat} {x y z : κ}
    (hxy : i = j → x = y) (hyz : j = k → y = z) (htrans : R x y → R y z → R x z)
    (h : i = j ∨ R x y) (h' : j = k ∨ R y z) : i = k ∨ R x z := by
  rcases h with hid | hR <;> rcases h' with hid' | hR'
  · exact .inl (hid.trans hid')
  · exact .inr (hxy hid ▸ hR')
  · exact .inr (hyz hid' ▸ hR)
  · exact .inr (htrans hR hR')

/-- Between values of one heap, equality is transitive. -/
theorem equal_trans (ha : a.DistinctKeys) (hb : b.DistinctKeys) (hc : c.DistinctKeys)
    (hlives : a.LivesIn z) (hlives' : b.LivesIn z) (hlives'' : c.LivesIn z)
    (h : a.equal b = true) (h' : b.equal c = true) : a.equal c = true := by
  have htype := type_eq_of_equal h
  have htype' := type_eq_of_equal h'
  induction ha generalizing b c with
  | plain hplain => exact equal_trans_of_plain hplain h h'
  | @list xs hsound hitems ih =>
    have ha := DistinctKeys.list hsound hitems
    cases b <;> cases htype
    cases c <;> cases htype'
    rw [equal_list_iff ha hb] at h
    rw [equal_list_iff hb hc] at h'
    rw [equal_list_iff ha hc]
    refine same_or_trans (hlives.items_eq hlives') (hlives'.items_eq hlives'') (fun h h' => ?_) h h'
    refine forall₂_trans h h' fun x hx y hy z hz heq heq' => ?_
    exact ih x hx (hb.items y hy) (hc.items z hz) (hlives.items x hx) (hlives'.items y hy)
      (hlives''.items z hz) heq heq' (type_eq_of_equal heq) (type_eq_of_equal heq')
  | @map t hkeys hvalues ih =>
    have ha := DistinctKeys.map hkeys hvalues
    cases b <;> cases htype
    cases c <;> cases htype'
    rw [equal_map_iff ha hb] at h
    rw [equal_map_iff hb hc] at h'
    rw [equal_map_iff ha hc]
    refine same_or_trans (hlives.entries_eq hlives') (hlives'.entries_eq hlives'') (fun h h' => ?_)
      h h'
    refine h.trans h' fun v hv x hx w hw heq heq' => ?_
    exact ih v hv (hb.values x hx) (hc.values w hw) (hlives.values v hv) (hlives'.values x hx)
      (hlives''.values w hw) heq heq' (type_eq_of_equal heq) (type_eq_of_equal heq')

/-! ## Contents -/

/-- The same but for the shape of lists, for identities and for the order of entries. -/
inductive SameContents : Value → Value → Prop
  | plain {v : Value} (h : v.isPlain = true) : SameContents v v
  | list {xs ys : Sequence Value} (hlength : xs.items.length = ys.items.length)
      (hitems : ∀ x y, (x, y) ∈ xs.items.zip ys.items → SameContents x y) :
      SameContents (.list xs) (.list ys)
  | map {t u : Table Value} (hkeys : ∀ k, t.content.contains k = u.content.contains k)
      (hvalues : ∀ k v w, t.content.find? k = some v → u.content.find? k = some w →
        SameContents v w) : SameContents (.map t) (.map u)

theorem SameContents.equal (h : a.SameContents b) (ha : a.DistinctKeys) (hb : b.DistinctKeys)
    (hnan : a.NaNFree) : a.equal b = true := by
  induction h with
  | plain _ => exact equal_iff.mpr (compare_self hnan)
  | @list xs ys hlength hitems ih =>
    refine (equal_list_iff ha hb).mpr (.inr (List.forall₂_iff_zip.mpr ⟨hlength, ?_⟩))
    intro x y hmem
    obtain ⟨hx, hy⟩ := List.of_mem_zip hmem
    exact ih x y hmem (ha.items x hx) (hb.items y hy) (hnan.items x hx)
  | @map t u hkeys hvalues ih =>
    refine (equal_map_iff ha hb).mpr (.inr ⟨hkeys, fun k v w hv hw => ?_⟩)
    have hmem := Dict.mem_values_of_find? hv
    exact ih k v w hv hw (ha.values v hmem) (hb.values w (Dict.mem_values_of_find? hw))
      (hnan.values v hmem)

/-! ## Main statement -/

/-- Between values whose maps have distinct keys, equality is symmetric, and between those of one
heap it is transitive; one is less than another when that one is greater. Values with the same
contents and no not-a-number are equal, and maps are equal when they are the same or have the same
keys with equal values. -/
theorem equality_is_partial_equivalence (ha : a.DistinctKeys) (hb : b.DistinctKeys)
    (hc : c.DistinctKeys) :
    (a.equal b = true → b.equal a = true) ∧
    (∀ z : Heap, a.LivesIn z → b.LivesIn z → c.LivesIn z →
      a.equal b = true → b.equal c = true → a.equal c = true) ∧
    (a.compare b = some .lt ↔ b.compare a = some .gt) ∧
    (a.SameContents b → a.NaNFree → a.equal b = true) ∧
    (∀ t u : Table Value, a = .map t → b = .map u → (a.equal b = true ↔
      t.id = u.id ∨ t.content.Agrees (fun v w => v.equal w = true) u.content)) := by
  refine ⟨fun h => ?_, fun z hz hz' hz'' h h' => equal_trans ha hb hc hz hz' hz'' h h', ?_,
    fun h hnan => h.equal ha hb hnan, ?_⟩
  · rw [equal_comm hb ha, h]
  · rw [compare_swap ha hb]
    rcases a.compare b with _ | _ | _ | _ <;> simp
  · rintro t u rfl rfl
    exact equal_map_iff ha hb

/-- A list of ten, joined from halves or stored, in maps that have it first or last. -/
theorem equality_is_partial_equivalence_ten :
    let trues (n : Nat) := List.replicate n (Value.bool true)
    let joined : Sequence Value := ⟨1, .cat (.leaf (trues 5).toArray) (.leaf (trues 5).toArray) 10⟩
    let stored : Sequence Value := ⟨2, .leaf (trues 10).toArray⟩
    let first : Dict Value := ⟨[(7, .list joined), (8, .void)]⟩
    let last : Dict Value := ⟨[(8, .void), (7, .list stored)]⟩
    equal (.map ⟨3, first⟩) (.map ⟨4, last⟩) = true ∧
      equal (.map ⟨4, last⟩) (.map ⟨5, first⟩) = true ∧
      equal (.map ⟨3, first⟩) (.map ⟨5, first⟩) = true := by
  intro trues joined stored first last
  let z : Heap := ⟨fun i => if i = 1 then joined.content else stored.content,
    fun i => if i = 4 then last else first, 6⟩
  have hbools {n : Nat} : ∀ v ∈ trues n, ∃ b, v = .bool b :=
    fun v hv => ⟨true, List.eq_of_mem_replicate hv⟩
  obtain ⟨hwell, hlives, hnan⟩ := wellFormed_of_bools z joined
    ⟨by decide, by decide, by decide, by decide, trivial, trivial⟩ (by decide) rfl
    (fun v hv => (List.mem_append.mp hv).elim (hbools v) (hbools v))
  obtain ⟨hwell', hlives', -⟩ := wellFormed_of_bools z stored trivial (by decide) rfl hbools
  have hfirst {P : Value → Prop} (hlist : P (.list joined)) (hvoid : P .void) :
      ∀ v ∈ first.values, P v := by
    simp [first, Dict.values, hlist, hvoid]
  have hlast {P : Value → Prop} (hlist : P (.list stored)) (hvoid : P .void) :
      ∀ v ∈ last.values, P v := by
    simp [last, Dict.values, hlist, hvoid]
  have hkeys : first.keys.Nodup ∧ last.keys.Nodup := by decide
  have hdistinct (i : Nat) : DistinctKeys (.map ⟨i, first⟩) :=
    .map hkeys.1 (hfirst hwell.distinctKeys (.plain rfl))
  have hdistinct' : DistinctKeys (.map ⟨4, last⟩) :=
    .map hkeys.2 (hlast hwell'.distinctKeys (.plain rfl))
  have hnanfree (i : Nat) : NaNFree (.map ⟨i, first⟩) :=
    .map (hfirst hnan (.plain rfl (by simp)))
  have hitems : SameContents (.list joined) (.list stored) := by
    refine .list rfl fun x y hmem => ?_
    have hxy : x ∈ trues 10 ∧ y ∈ trues 10 := List.of_mem_zip hmem
    rw [List.eq_of_mem_replicate hxy.1, List.eq_of_mem_replicate hxy.2]
    exact .plain rfl
  have hcontents (i : Nat) : SameContents (.map ⟨i, first⟩) (.map ⟨4, last⟩) := by
    refine .map (fun k => ?_) fun k v w hv hw => ?_
    · simp [first, last, Dict.contains, Bool.or_comm]
    · have hmem := Dict.mem_entries_of_find? hv
      simp only [first, List.mem_cons, Prod.mk.injEq, List.not_mem_nil, or_false] at hmem
      rcases hmem with ⟨rfl, rfl⟩ | ⟨rfl, rfl⟩
      · cases hw
        exact hitems
      · cases hw
        exact .plain rfl
  obtain ⟨-, htrans, -, hequal, -⟩ :=
    equality_is_partial_equivalence (hdistinct 3) hdistinct' (hdistinct 5)
  obtain ⟨hsymm, -, -, hequal', -⟩ :=
    equality_is_partial_equivalence (hdistinct 5) hdistinct' hdistinct'
  have h := hequal (hcontents 3) (hnanfree 3)
  have h' := hsymm (hequal' (hcontents 5) (hnanfree 5))
  refine ⟨h, h', htrans z ?_ ?_ ?_ h h'⟩
  · exact .map (by decide) rfl (hfirst hlives (.plain rfl))
  · exact .map (by decide) rfl (hlast hlives' (.plain rfl))
  · exact .map (by decide) rfl (hfirst hlives (.plain rfl))

end Value

end Clausal
