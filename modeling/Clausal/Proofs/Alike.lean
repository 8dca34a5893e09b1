import Clausal.Proofs.Identity
import Clausal.Proofs.Matching

/-!
# Values that differ in shape only

Two values are alike when they are the same but for how the ropes of their lists are built and which
identities their lists and maps have (`Value.Alike`): they match, whatever the identities are
(`Value.alike_eq`). No operator can tell them apart: each of them is a function of the items of its
lists. The ways that operators have of saving work do not show: small results are copied, a whole
slice is the list itself, and of two lists with one identity the items are not looked at, which is
right because comparing a value with itself would find it equal (`Value.compare_self`). That in turn
needs numbers that equal themselves.

`Value.Twins` is likeness with what it takes: both values are well formed, an identity is that of
one content, and there is no not-a-number in them. It passes on to items and entries
(`Value.Twins.items`, `Value.Twins.entries`), so identities do not matter in comparing
(`Value.Twins.comparing`), and all else is what matching values have in common.
-/

namespace Clausal

open List (Forall₂)

namespace Value

/-! ## Likeness -/

/-- The same but for the shape of lists and for identities. -/
inductive Alike : Value → Value → Prop
  | plain {v : Value} (h : v.isPlain = true) : Alike v v
  | list {xs ys : Sequence Value} (hlength : xs.items.length = ys.items.length)
      (hitems : ∀ x y, (x, y) ∈ xs.items.zip ys.items → Alike x y) : Alike (.list xs) (.list ys)
  | map {t u : Table Value} (hkeys : t.content.keys = u.content.keys)
      (hvalues : ∀ v w, (v, w) ∈ t.content.values.zip u.content.values → Alike v w) :
      Alike (.map t) (.map u)

/-- No number in the items of lists and the values of maps is not-a-number. -/
inductive NaNFree : Value → Prop
  | plain {v : Value} (h : v.isPlain = true) (hnumber : ∀ n, v = .number n → n.isNaN = false) :
      NaNFree v
  | list {xs : Sequence Value} (hitems : ∀ x ∈ xs.items, NaNFree x) : NaNFree (.list xs)
  | map {t : Table Value} (hvalues : ∀ v ∈ t.content.values, NaNFree v) : NaNFree (.map t)

/-- Alike values match, and any identities will do. -/
theorem alike_eq : Alike = Matches fun _ _ => True := by
  funext a b
  refine propext ⟨fun h => ?_, fun h => ?_⟩
  · induction h with
    | plain h => exact .plain h
    | list hlength _ ih => exact .list trivial hlength ih
    | map hkeys _ ih => exact .map trivial hkeys ih
  · induction h with
    | plain h => exact .plain h
    | list _ hlength _ ih => exact .list hlength ih
    | map _ hkeys _ ih => exact .map hkeys ih

theorem alike_list_iff {xs ys : Sequence Value} :
    Alike (.list xs) (.list ys) ↔ Forall₂ Alike xs.items ys.items := by
  rw [alike_eq, matches_list_iff, true_and]

theorem alike_map_iff {t u : Table Value} :
    Alike (.map t) (.map u) ↔ Forall₂ (EntryRel Alike) t.content.entries u.content.entries := by
  rw [alike_eq, matches_map_iff, true_and]

theorem alike_refl_of_plain {vs : List Value} (h : ∀ v ∈ vs, v.isPlain = true) :
    Forall₂ Alike vs vs :=
  List.forall₂_same.mpr fun v hv => .plain (h v hv)

/-! ## Twins -/

/-- Alike values that an evaluation can hold, the first in one heap and the second in another,
without a not-a-number in them. -/
structure Twins (w w' : Heap) (a a' : Value) : Prop where
  alike : a.Alike a'
  wellFormed : a.WellFormed
  wellFormed' : a'.WellFormed
  livesIn : a.LivesIn w
  livesIn' : a'.LivesIn w'
  nanFree : a.NaNFree
  nanFree' : a'.NaNFree

theorem NaNFree.items {xs : Sequence Value} (h : NaNFree (.list xs)) :
    ∀ x ∈ xs.items, x.NaNFree := by
  cases h with
  | plain hplain _ => cases hplain
  | list hitems => exact hitems

theorem NaNFree.values {t : Table Value} (h : NaNFree (.map t)) :
    ∀ v ∈ t.content.values, v.NaNFree := by
  cases h with
  | plain hplain _ => cases hplain
  | map hvalues => exact hvalues

namespace Twins

variable {w w' : Heap} {a a' : Value} {xs xs' : Sequence Value} {t t' : Table Value}

theorem matched (h : Twins w w' a a') : Matched (fun _ _ => True) a a' :=
  ⟨alike_eq ▸ h.alike, h.wellFormed, h.wellFormed'⟩

/-- The items of twins are twins. -/
theorem items (h : Twins w w' (.list xs) (.list xs')) :
    Forall₂ (Twins w w') xs.items xs'.items := by
  refine List.forall₂_iff_zip.mpr ⟨(alike_list_iff.mp h.alike).length_eq, fun {x x'} hmem => ?_⟩
  have hx := Rope.mem_stored_of_mem_stretch (List.of_mem_zip hmem).1
  have hx' := Rope.mem_stored_of_mem_stretch (List.of_mem_zip hmem).2
  exact ⟨List.forall₂_zip (alike_list_iff.mp h.alike) hmem, h.wellFormed.stored x hx,
    h.wellFormed'.stored x' hx', h.livesIn.stored x hx, h.livesIn'.stored x' hx',
    h.nanFree.items x (List.of_mem_zip hmem).1, h.nanFree'.items x' (List.of_mem_zip hmem).2⟩

/-- The entries of twins are twins under the same keys. -/
theorem entries (h : Twins w w' (.map t) (.map t')) :
    Forall₂ (EntryRel (Twins w w')) t.content.entries t'.content.entries := by
  obtain ⟨hkeys, hvalues⟩ := forall₂_entryRel.mp (alike_map_iff.mp h.alike)
  refine forall₂_entryRel.mpr ⟨hkeys, List.forall₂_iff_zip.mpr ⟨hvalues.length_eq, ?_⟩⟩
  intro v v' hmem
  have hv : v ∈ t.content.values := (List.of_mem_zip hmem).1
  have hv' : v' ∈ t'.content.values := (List.of_mem_zip hmem).2
  exact ⟨List.forall₂_zip hvalues hmem, h.wellFormed.values v hv, h.wellFormed'.values v' hv',
    h.livesIn.values v hv, h.livesIn'.values v' hv', h.nanFree.values v hv,
    h.nanFree'.values v' hv'⟩

end Twins

/-! ## Comparing -/

/-- In a dictionary with distinct keys every entry is found. -/
theorem lookup_of_mem {es : List (UInt64 × Value)} (h : (es.map (·.1)).Nodup)
    {e : UInt64 × Value} (he : e ∈ es) : es.lookup e.1 = some e.2 := by
  induction es with
  | nil => cases he
  | cons first es ih =>
    obtain ⟨hfirst, hes⟩ := List.nodup_cons.mp h
    rw [List.lookup_cons]
    rcases List.mem_cons.mp he with rfl | he
    · simp
    · have hne : (e.1 == first.1) = false := by
        rw [beq_eq_false_iff_ne]
        intro heq
        exact hfirst (List.mem_map.mpr ⟨e, he, heq⟩)
      rw [hne]
      exact ih hes he

theorem compare_unpacked_self {x : Float.Model.UnpackedFloat} (h : x.isNaN = false) :
    x.compare x = some .eq := by
  cases x with
  | notANumber => cases h
  | infinity sign => cases sign <;> rfl
  | zero sign => rfl
  | finite sign mantissa exponent _ =>
    have hsame : (Ord.compare exponent exponent).then (Ord.compare mantissa mantissa) = .eq := by
      simp
    cases sign with
    | negative => exact congrArg (fun o : Ordering => some o.swap) hsame
    | positive => exact congrArg some hsame

/-- A number other than not-a-number equals itself. -/
theorem compareNumbers_self {n : Float} (h : n.isNaN = false) : compareNumbers n n = some .eq := by
  have hself := compare_unpacked_self h
  have hlt : ¬ n < n := by
    intro hlt
    have hmodel : (n.toModel.unpack.compare n.toModel.unpack == some .lt) = true :=
      of_decide_eq_true (p := n.toModel < n.toModel) hlt
    rw [hself] at hmodel
    cases hmodel
  have heq : (n == n) = true := by
    change (n.toModel.unpack.compare n.toModel.unpack == some .eq) = true
    rw [hself]
    rfl
  rw [compareNumbers, if_neg hlt, if_pos heq]

theorem compareTexts_self (s : String) : compareTexts s s = .eq := by
  rw [compareTexts, if_neg (String.lt_irrefl s), if_pos rfl]

/-- Comparing a value with itself finds it equal; lists and maps by their identity. -/
theorem compare_self {v : Value} (h : v.NaNFree) : v.compare v = some .eq := by
  cases v with
  | number n =>
    rw [compare]
    refine compareNumbers_self ?_
    cases h with
    | plain _ hnumber => exact hnumber n rfl
  | text s => rw [compare, compareTexts_self]
  | _ => simp [compare, equalOrNone]

/-- Of two lists of one identity, the items are equal. -/
theorem itemsEqual_of_id_eq {w : Heap} {xs ys : Sequence Value} (hx : Value.LivesIn w (.list xs))
    (hy : Value.LivesIn w (.list ys)) (hnan : NaNFree (.list xs)) (hid : xs.id = ys.id) :
    ItemsEqual xs ys := by
  have hitems : ys.items = xs.items := by
    rw [Sequence.items, Sequence.items, hx.content_eq hy hid]
  rw [ItemsEqual, hitems]
  exact List.forall₂_same.mpr fun x hx => compare_self (hnan.items x hx)

/-- Of two maps of one identity, the entries are equal. -/
theorem entriesEqual_of_id_eq {w : Heap} {t u : Table Value} (ht : Value.LivesIn w (.map t))
    (hu : Value.LivesIn w (.map u)) (hwell : WellFormed (.map t)) (hnan : NaNFree (.map t))
    (hid : t.id = u.id) : EntriesEqual t u := by
  rw [EntriesEqual, ← ht.entries_eq hu hid]
  refine ⟨rfl, fun e he => ⟨e.2, lookup_of_mem hwell.nodup_keys he, compare_self ?_⟩⟩
  exact hnan.values e.2 (List.mem_map_of_mem he)

/-- In comparing twins, identities do not matter. -/
theorem Twins.comparing (w w' : Heap) : Comparing (Twins w w') where
  kind h := h.matched.same
  sound h := ⟨h.wellFormed.sound, h.wellFormed'.sound⟩
  items := Twins.items
  entries := Twins.entries
  lists hx hy := .inr ⟨itemsEqual_of_id_eq hx.livesIn hy.livesIn hx.nanFree,
    itemsEqual_of_id_eq hx.livesIn' hy.livesIn' hx.nanFree'⟩
  maps ht hu := .inr ⟨entriesEqual_of_id_eq ht.livesIn hu.livesIn ht.wellFormed ht.nanFree,
    entriesEqual_of_id_eq ht.livesIn' hu.livesIn' ht.wellFormed' ht.nanFree'⟩

/-! ## Text -/

/-- The text of an item of a list. -/
def shown (v : Value) : String := if let .text s := v then Text.quoted s else v.display

theorem display_list (xs : Sequence Value) :
    display (.list xs) = "[" ++ ", ".intercalate (xs.items.map shown) ++ "]" := by
  rw [display, ← List.attach_map_val (f := shown)]
  congr 3
  apply List.map_congr_left
  rintro ⟨x, hx⟩ -
  cases x <;> rfl

theorem Alike.display_eq {a a' : Value} (h : a.Alike a') : a.display = a'.display := by
  induction h with
  | plain _ => rfl
  | @list xs ys hlength hitems ih =>
    have hshown : Forall₂ (fun x y => shown x = shown y) xs.items ys.items := by
      refine List.forall₂_iff_zip.mpr ⟨hlength, fun {x y} hmem => ?_⟩
      have hdisplay := ih x y hmem
      cases hitems x y hmem with
      | plain _ => rfl
      | _ => exact hdisplay
    rw [display_list, display_list]
    have hmap : xs.items.map shown = ys.items.map shown := by
      rw [← List.forall₂_eq_eq_eq, List.forall₂_map_left_iff, List.forall₂_map_right_iff]
      exact hshown
    rw [hmap]
  | @map t u hkeys _ _ =>
    have hsize : t.content.size = u.content.size := by
      have := congrArg List.length hkeys
      simpa [Dict.keys, Dict.size] using this
    rw [display, display, hsize]

namespace Twins

variable {w w' : Heap} {a a' b b' : Value}

theorem compare_eq (ha : Twins w w' a a') (hb : Twins w w' b b') :
    a.compare b = a'.compare b' :=
  (Twins.comparing w w').compare_eq ha hb

theorem apply_agree (ha : Twins w w' a a') (hb : Twins w w' b b') (op : BinaryOp)
    (id id' : Nat) : Agree Alike (op.apply id a b) (op.apply id' a' b') := by
  rw [alike_eq]
  exact ha.matched.apply_agree hb.matched (ha.compare_eq hb) trivial trivial op

theorem truthy_eq (ha : Twins w w' a a') : a.truthy = a'.truthy := ha.matched.truthy_eq

theorem unary_eq (ha : Twins w w' a a') (op : UnaryOp) : op.apply a = op.apply a' :=
  ha.matched.unary_eq op

theorem len_eq {ε κ : Type} [Catchable ε] (ha : Twins w w' a a') (invoke : Invoke ε κ) :
    Native.len.run invoke [a] = Native.len.run invoke [a'] := by
  cases ha.alike with
  | plain _ => rfl
  | list _ _ => rw [Native.run, Native.run, ha.matched.size_eq]
  | @map t t' _ _ =>
    have hsize : t.content.size = t'.content.size := ha.entries.length_eq
    rw [Native.run, Native.run, hsize]

theorem target_agree (ha : Twins w w' a a') (target : Target) (id id' : Nat) :
    Agree (Forall₂ Alike) (target.values a id) (target.values a' id') := by
  unfold Target.values
  cases target with
  | name _ => exact .ok (.cons ha.alike .nil)
  | items front rest =>
    dsimp only
    cases ha.alike with
    | plain hplain => cases a <;> cases hplain <;> exact .error _
    | list _ _ =>
      dsimp only
      rw [ha.matched.size_eq, alike_eq]
      refine .ok (List.rel_append ?_ ?_)
      · rw [List.forall₂_map_left_iff, List.forall₂_map_right_iff]
        exact List.forall₂_same.mpr fun i _ => ha.matched.item_matches i
      · rw [List.forall₂_map_left_iff, List.forall₂_map_right_iff]
        exact List.forall₂_same.mpr fun _ _ => ha.matched.extract_matches trivial trivial _ _
    | map _ _ => exact .error _

/-! ## Main statement -/

/-- No operator tells twins apart: on one pair of values and on their twins, the binary operators
give alike results or the same error, and so do comparing, truth, the unary operators, the text, the
built-in length, and the values that a local binding takes from a value. -/
theorem shape_is_unobservable (ha : Twins w w' a a') (hb : Twins w w' b b') :
    (∀ (op : BinaryOp) (id id' : Nat), Agree Alike (op.apply id a b) (op.apply id' a' b')) ∧
    a.compare b = a'.compare b' ∧
    a.truthy = a'.truthy ∧
    (∀ op : UnaryOp, op.apply a = op.apply a') ∧
    a.display = a'.display ∧
    (∀ invoke : Invoke Cause Closure, Native.len.run invoke [a] = Native.len.run invoke [a']) ∧
    (∀ (target : Target) (id id' : Nat),
      Agree (Forall₂ Alike) (target.values a id) (target.values a' id')) :=
  ⟨ha.apply_agree hb, ha.compare_eq hb, ha.truthy_eq, ha.unary_eq, ha.alike.display_eq, ha.len_eq,
    ha.target_agree⟩

end Twins

/-- A list of truth values only, as an evaluation can hold it. -/
theorem wellFormed_of_bools (w : Heap) (xs : Sequence Value) (hsound : xs.content.Sound)
    (hid : xs.id < w.next) (hcontent : w.list xs.id = xs.content)
    (hbools : ∀ v ∈ xs.content.stored, ∃ b, v = .bool b) :
    WellFormed (.list xs) ∧ LivesIn w (.list xs) ∧ NaNFree (.list xs) := by
  refine ⟨.list hsound fun v hv => ?_, .list hid hcontent fun v hv => ?_, .list fun v hv => ?_⟩
  · obtain ⟨b, rfl⟩ := hbools v hv
    exact .plain rfl
  · obtain ⟨b, rfl⟩ := hbools v hv
    exact .plain rfl
  · obtain ⟨b, rfl⟩ := hbools v (Rope.mem_stored_of_mem_stretch hv)
    exact .plain rfl (by simp)

/-- Ten times `true`. Joined from two halves and compared with itself, it is equal by identity; so a
stored one and one cut from a longer list are equal item by item. -/
theorem Twins.shape_is_unobservable_ten :
    let trues (n : Nat) := List.replicate n (Value.bool true)
    let joined : Sequence Value := ⟨1, .cat (.leaf (trues 5).toArray) (.leaf (trues 5).toArray) 10⟩
    let stored : Sequence Value := ⟨1, .leaf (trues 10).toArray⟩
    let cut : Sequence Value := ⟨2, .slice (.leaf (trues 12).toArray) 1 11⟩
    compare (.list joined) (.list joined) = some .eq ∧
      compare (.list stored) (.list cut) = some .eq := by
  intro trues joined stored cut
  let w : Heap := ⟨fun _ => joined.content, fun _ => .empty, 2⟩
  let w' : Heap := ⟨fun i => if i = 1 then stored.content else cut.content, fun _ => .empty, 3⟩
  have hbools {n : Nat} : ∀ v ∈ trues n, ∃ b, v = .bool b :=
    fun v hv => ⟨true, List.eq_of_mem_replicate hv⟩
  obtain ⟨hwell, hlives, hnan⟩ := wellFormed_of_bools w joined
    ⟨by decide, by decide, by decide, by decide, trivial, trivial⟩ (by decide) rfl
    (fun v hv => (List.mem_append.mp hv).elim (hbools v) (hbools v))
  obtain ⟨hwell₁, hlives₁, hnan₁⟩ := wellFormed_of_bools w' stored
    trivial (by decide) rfl hbools
  obtain ⟨hwell₂, hlives₂, hnan₂⟩ := wellFormed_of_bools w' cut
    ⟨by decide, by decide, by decide, rfl, trivial⟩ (by decide) rfl hbools
  have halike : Forall₂ Alike (trues 10) (trues 10) :=
    alike_refl_of_plain fun v hv => List.eq_of_mem_replicate hv ▸ rfl
  have hstored : Twins w w' (.list joined) (.list stored) :=
    ⟨alike_list_iff.mpr halike, hwell, hwell₁, hlives, hlives₁, hnan, hnan₁⟩
  have hcut : Twins w w' (.list joined) (.list cut) :=
    ⟨alike_list_iff.mpr halike, hwell, hwell₂, hlives, hlives₂, hnan, hnan₂⟩
  obtain ⟨-, hcompare, -⟩ := hstored.shape_is_unobservable hcut
  have hself : compare (.list joined) (.list joined) = some .eq := compare_self hnan
  exact ⟨hself, hcompare.symm.trans hself⟩

end Value

end Clausal
