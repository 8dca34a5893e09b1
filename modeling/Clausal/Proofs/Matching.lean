import Mathlib.Data.List.Forall2
import Clausal.Proofs.Items

/-!
# Values with matched identities

Two values match when they are the same but for how the ropes of their lists are built, and the
identities of their lists and maps are pairs of a given relation (`Value.Matches`). Every operator
is a function of the items of lists, of the entries of maps and of which identities are equal. So on
matching values it gives matching results or the same error, as long as the identities it is given
match too (`Value.Matched.apply_agree`).

Only comparing looks at identities: of two lists with one identity the items are not looked at
(`Value.compare_list`). Comparing does not tell related values apart (`Value.Comparing.compare_eq`)
if the identities of two lists are the same in both, or do not matter because the items are equal
anyway. The first is the case if the relation pairs identities one to one
(`Value.Matched.comparing`).
-/

namespace Clausal

open List (Forall₂)

namespace Value

/-! ## Entries of maps -/

/-- Entries with one key and alike values. -/
def EntryRel (R : Value → Value → Prop) (e e' : UInt64 × Value) : Prop := e.1 = e'.1 ∧ R e.2 e'.2

theorem forall₂_entryRel {R : Value → Value → Prop} {es es' : List (UInt64 × Value)} :
    Forall₂ (EntryRel R) es es' ↔
      es.map (·.1) = es'.map (·.1) ∧ Forall₂ R (es.map (·.2)) (es'.map (·.2)) := by
  induction es generalizing es' with
  | nil => cases es' <;> simp
  | cons e es ih =>
    cases es' with
    | nil => simp
    | cons e' es' =>
      simp only [List.forall₂_cons, ih, EntryRel, List.map_cons, List.cons.injEq]
      exact ⟨fun ⟨⟨hk, hv⟩, hks, hvs⟩ => ⟨⟨hk, hks⟩, hv, hvs⟩,
        fun ⟨⟨hk, hks⟩, hv, hvs⟩ => ⟨⟨hk, hv⟩, hks, hvs⟩⟩

/-- Looking up a key in related entries gives related values. -/
theorem lookup_rel {R : Value → Value → Prop} {es es' : List (UInt64 × Value)}
    (h : Forall₂ (EntryRel R) es es') (key : UInt64) :
    Option.Rel R (es.lookup key) (es'.lookup key) := by
  induction h with
  | nil => exact .none
  | @cons e e' es es' he _ ih =>
    obtain ⟨k, v⟩ := e
    obtain ⟨k', v'⟩ := e'
    obtain ⟨rfl, hv⟩ := he
    rw [List.lookup_cons, List.lookup_cons]
    dsimp only
    split
    · exact .some hv
    · exact ih

theorem replace_rel {R : Value → Value → Prop} {es es' : List (UInt64 × Value)} {v v' : Value}
    (h : Forall₂ (EntryRel R) es es') (key : UInt64) (hv : R v v') :
    Forall₂ (EntryRel R) (Dict.replace key v es) (Dict.replace key v' es') := by
  induction h with
  | nil => exact .nil
  | @cons e e' es es' he hes ih =>
    obtain ⟨k, x⟩ := e
    obtain ⟨k', x'⟩ := e'
    obtain ⟨rfl, hx⟩ := he
    rw [Dict.replace, Dict.replace]
    dsimp only
    split
    · exact .cons ⟨rfl, hv⟩ hes
    · exact .cons ⟨rfl, hx⟩ ih

theorem contains_congr {a a' : Dict Value} (h : a.keys = a'.keys) (key : UInt64) :
    a.contains key = a'.contains key := by
  rw [Bool.eq_iff_iff, Dict.contains_iff, Dict.contains_iff, h]

theorem join_rel {R : Value → Value → Prop} {a a' : Dict Value} {es es' : List (UInt64 × Value)}
    {e e' : UInt64 × Value} (ha : a.keys = a'.keys) (h : Forall₂ (EntryRel R) es es')
    (he : EntryRel R e e') : Forall₂ (EntryRel R) (a.join es e) (a'.join es' e') := by
  obtain ⟨k, v⟩ := e
  obtain ⟨k', v'⟩ := e'
  obtain ⟨rfl, hv⟩ := he
  dsimp only at hv
  unfold Dict.join
  rw [contains_congr ha]
  dsimp only
  split
  · exact replace_rel h k hv
  · exact List.rel_append h (.cons ⟨rfl, hv⟩ .nil)

/-- Joining related dictionaries gives related ones. -/
theorem append_rel {R : Value → Value → Prop} {a a' b b' : Dict Value}
    (ha : Forall₂ (EntryRel R) a.entries a'.entries)
    (hb : Forall₂ (EntryRel R) b.entries b'.entries) :
    Forall₂ (EntryRel R) (a.append b).entries (a'.append b').entries := by
  have hkeys : a.keys = a'.keys := (forall₂_entryRel.mp ha).1
  rw [Dict.append_eq_foldl, Dict.append_eq_foldl]
  have hstep : Relator.LiftFun (Forall₂ (EntryRel R))
      (Relator.LiftFun (EntryRel R) (Forall₂ (EntryRel R))) a.join a'.join :=
    fun _ _ hes _ _ he => join_rel hkeys hes he
  exact List.rel_foldl hstep ha hb

/-- Writing a related value under the same key gives related entries. -/
theorem insert_rel {R : Value → Value → Prop} {a a' : Dict Value} {v v' : Value}
    (ha : Forall₂ (EntryRel R) a.entries a'.entries) (key : UInt64) (hv : R v v') :
    Forall₂ (EntryRel R) (a.insert key v).entries (a'.insert key v').entries := by
  unfold Dict.insert
  rw [contains_congr (forall₂_entryRel.mp ha).1]
  split
  · exact replace_rel ha key hv
  · exact List.rel_append ha (.cons ⟨rfl, hv⟩ .nil)

/-! ## Matching -/

/-- The same but for the shape of lists, with identities that `ρ` relates. -/
inductive Matches (ρ : Nat → Nat → Prop) : Value → Value → Prop
  | plain {v : Value} (h : v.isPlain = true) : Matches ρ v v
  | list {xs ys : Sequence Value} (hid : ρ xs.id ys.id)
      (hlength : xs.items.length = ys.items.length)
      (hitems : ∀ x y, (x, y) ∈ xs.items.zip ys.items → Matches ρ x y) :
      Matches ρ (.list xs) (.list ys)
  | map {t u : Table Value} (hid : ρ t.id u.id) (hkeys : t.content.keys = u.content.keys)
      (hvalues : ∀ v w, (v, w) ∈ t.content.values.zip u.content.values → Matches ρ v w) :
      Matches ρ (.map t) (.map u)

section

variable {ρ : Nat → Nat → Prop}

theorem matches_list_iff {xs ys : Sequence Value} :
    Matches ρ (.list xs) (.list ys) ↔
      ρ xs.id ys.id ∧ Forall₂ (Matches ρ) xs.items ys.items := by
  rw [List.forall₂_iff_zip]
  constructor
  · intro h
    cases h with
    | plain h => cases h
    | list hid hlength hitems => exact ⟨hid, hlength, fun hmem => hitems _ _ hmem⟩
  · rintro ⟨hid, hlength, hitems⟩
    exact .list hid hlength fun _ _ hmem => hitems hmem

theorem matches_map_iff {t u : Table Value} :
    Matches ρ (.map t) (.map u) ↔
      ρ t.id u.id ∧ Forall₂ (EntryRel (Matches ρ)) t.content.entries u.content.entries := by
  rw [forall₂_entryRel]
  change _ ↔ ρ t.id u.id ∧ t.content.keys = u.content.keys ∧
    Forall₂ (Matches ρ) t.content.values u.content.values
  rw [List.forall₂_iff_zip]
  constructor
  · intro h
    cases h with
    | plain h => cases h
    | map hid hkeys hvalues =>
      refine ⟨hid, hkeys, ?_, fun hmem => hvalues _ _ hmem⟩
      have := congrArg List.length hkeys
      simpa [Dict.keys, Dict.values] using this
  · rintro ⟨hid, hkeys, -, hvalues⟩
    exact .map hid hkeys fun _ _ hmem => hvalues hmem

theorem Matches.mono {σ : Nat → Nat → Prop} (hρ : ∀ i j, ρ i j → σ i j) {a b : Value}
    (h : a.Matches ρ b) : a.Matches σ b := by
  induction h with
  | plain h => exact .plain h
  | list hid hlength _ ih => exact .list (hρ _ _ hid) hlength ih
  | map hid hkeys _ ih => exact .map (hρ _ _ hid) hkeys ih

theorem Matches.type_eq {a b : Value} (h : a.Matches ρ b) : a.type = b.type := by
  cases h <;> rfl

end

/-! ## Comparing -/

theorem all_eq_true {n : Nat} {f : (i : Nat) → i < n → Bool} :
    Nat.all n f = true ↔ ∀ i (h : i < n), f i h = true := by
  rw [Nat.all_eq_finRange_all, List.all_eq_true]
  exact ⟨fun h i hi => h ⟨i, hi⟩ (List.mem_finRange _), fun h i _ => h i.1 i.2⟩

/-- Two lists are equal when they have one identity or equal items. -/
theorem compare_list {xs ys : Sequence Value} (hx : xs.content.Sound) (hy : ys.content.Sound) :
    ∃ c, compare (.list xs) (.list ys) = equalOrNone c ∧
      (c = true ↔ xs.id = ys.id ∨
        Forall₂ (fun x y => compare x y = some .eq) xs.items ys.items) := by
  have hlenx : xs.items.length = xs.size := hx.length_items
  have hleny : ys.items.length = ys.size := hy.length_items
  rw [compare]
  refine ⟨_, rfl, ?_⟩
  simp only [Bool.or_eq_true, Bool.and_eq_true, beq_iff_eq, List.forall₂_iff_get, all_eq_true,
    hlenx, hleny]
  refine or_congr_right (and_congr_right fun hsize => ?_)
  refine forall_congr' fun i => forall_congr' fun hi => ?_
  have hgetx : xs.get? i = some (xs.items.get ⟨i, hlenx ▸ hi⟩) := by
    rw [Sequence.get?, hx.get?_eq]
    exact List.getElem?_eq_getElem _
  have hgety : ys.get? i = some (ys.items.get ⟨i, by omega⟩) := by
    rw [Sequence.get?, hy.get?_eq]
    exact List.getElem?_eq_getElem _
  constructor
  · intro h hi'
    split at h
    · next x y hx' hy' =>
      rw [hgetx] at hx'
      rw [hgety] at hy'
      cases hx'
      cases hy'
      exact beq_iff_eq.mp h
    · next hx' _ =>
      rw [hgetx] at hx'
      cases hx'
    · cases h
  · intro h
    split
    · next x y hx' hy' =>
      rw [hgetx] at hx'
      rw [hgety] at hy'
      cases hx'
      cases hy'
      exact beq_iff_eq.mpr (h (by omega))
    · rfl
    · next hnone _ => exact (hnone _ _ hgetx hgety).elim

/-- Two maps are equal when they have one identity, or as many entries and every entry of the first
has an equal one in the second. -/
theorem compare_map (t u : Table Value) :
    ∃ c, compare (.map t) (.map u) = equalOrNone c ∧
      (c = true ↔ t.id = u.id ∨ (t.content.size = u.content.size ∧
        ∀ e ∈ t.content.entries,
          ∃ w, u.content.find? e.1 = some w ∧ compare w e.2 = some .eq)) := by
  rw [compare]
  refine ⟨_, rfl, ?_⟩
  simp only [Bool.or_eq_true, Bool.and_eq_true, beq_iff_eq, List.all_eq_true, List.mem_attach,
    true_imp_iff, Subtype.forall]
  refine or_congr_right (and_congr_right fun _ => forall_congr' fun e => ?_)
  refine forall_congr' fun _ => ?_
  constructor
  · intro h
    split at h
    · next w hw => exact ⟨w, hw, beq_iff_eq.mp h⟩
    · cases h
  · rintro ⟨w, hw, heq⟩
    split
    · next w' hw' =>
      rw [hw] at hw'
      cases hw'
      exact beq_iff_eq.mpr heq
    · next hnone =>
      rw [hw] at hnone
      cases hnone

/-- A relation between the elements of two lists, seen through related lists. -/
theorem forall₂_congr {T R R' : Value → Value → Prop} {xs xs' ys ys' : List Value}
    (hxs : Forall₂ T xs xs') (hys : Forall₂ T ys ys')
    (hR : ∀ x ∈ xs, ∀ y ∈ ys, ∀ x' y', T x x' → T y y' → (R x y ↔ R' x' y')) :
    Forall₂ R xs ys ↔ Forall₂ R' xs' ys' := by
  induction hxs generalizing ys ys' with
  | nil => cases hys <;> simp
  | @cons x x' xs xs' hx _ ih =>
    cases hys with
    | nil => simp
    | @cons y y' ys ys' hy hys =>
      rw [List.forall₂_cons, List.forall₂_cons, hR x (by simp) y (by simp) x' y' hx hy,
        ih hys fun u hu v hv => hR u (by simp [hu]) v (by simp [hv])]

/-- A property of the elements of a list, seen through a related list. -/
theorem forall_mem_congr {α : Type} {T : α → α → Prop} {P P' : α → Prop} {xs xs' : List α}
    (hxs : Forall₂ T xs xs') (hP : ∀ x ∈ xs, ∀ x', T x x' → (P x ↔ P' x')) :
    (∀ x ∈ xs, P x) ↔ ∀ x' ∈ xs', P' x' := by
  induction hxs with
  | nil => simp
  | @cons x x' xs xs' hx _ ih =>
    rw [List.forall_mem_cons, List.forall_mem_cons, hP x (by simp) x' hx,
      ih fun u hu => hP u (by simp [hu])]

/-- Values of two types have no order. -/
theorem compare_eq_none {a b : Value} (h : a.type ≠ b.type) : a.compare b = none := by
  cases a <;> cases b <;> first | exact absurd rfl h | simp [compare]

/-- The items of the two lists are equal, one by one. -/
def ItemsEqual (xs ys : Sequence Value) : Prop :=
  Forall₂ (fun x y => compare x y = some .eq) xs.items ys.items

/-- The maps have as many entries, and those of the first have equal ones in the second. -/
def EntriesEqual (t u : Table Value) : Prop :=
  t.content.size = u.content.size ∧
    ∀ e ∈ t.content.entries, ∃ w, u.content.find? e.1 = some w ∧ compare w e.2 = some .eq

/-- Being the same or equal, where being the same is so in both or does not matter. -/
theorem same_or_equal_congr {same same' equal equal' : Prop} (hequal : equal ↔ equal')
    (h : (same ↔ same') ∨ (same → equal) ∧ (same' → equal')) :
    same ∨ equal ↔ same' ∨ equal' := by
  rcases h with hsame | ⟨hsame, hsame'⟩
  · exact or_congr hsame hequal
  · rw [or_iff_right_of_imp hsame, or_iff_right_of_imp hsame', hequal]

/-- What it takes of related values so that comparing does not tell them apart. They are of one
kind, what they hold is related, and identities of lists and of maps are equal in both or do not
matter. -/
structure Comparing (T : Value → Value → Prop) : Prop where
  kind : ∀ {a a'}, T a a' → a.Matches (fun _ _ => True) a'
  sound : ∀ {xs xs'}, T (.list xs) (.list xs') → xs.content.Sound ∧ xs'.content.Sound
  items : ∀ {xs xs'}, T (.list xs) (.list xs') → Forall₂ T xs.items xs'.items
  entries : ∀ {t t'}, T (.map t) (.map t') →
    Forall₂ (EntryRel T) t.content.entries t'.content.entries
  lists : ∀ {xs xs' ys ys'}, T (.list xs) (.list xs') → T (.list ys) (.list ys') →
    (xs.id = ys.id ↔ xs'.id = ys'.id) ∨
      (xs.id = ys.id → ItemsEqual xs ys) ∧ (xs'.id = ys'.id → ItemsEqual xs' ys')
  maps : ∀ {t t' u u'}, T (.map t) (.map t') → T (.map u) (.map u') →
    (t.id = u.id ↔ t'.id = u'.id) ∨
      (t.id = u.id → EntriesEqual t u) ∧ (t'.id = u'.id → EntriesEqual t' u')

namespace Comparing

variable {T : Value → Value → Prop} (hT : Comparing T)

include hT

/-- If items compare alike, then so do lists. -/
theorem compare_list_eq {xs xs' ys ys' : Sequence Value} (hx : T (.list xs) (.list xs'))
    (hy : T (.list ys) (.list ys'))
    (ih : ∀ x ∈ xs.items, ∀ y ∈ ys.items, ∀ x' y', T x x' → T y y' →
      compare x y = compare x' y') :
    compare (.list xs) (.list ys) = compare (.list xs') (.list ys') := by
  obtain ⟨hsx, hsx'⟩ := hT.sound hx
  obtain ⟨hsy, hsy'⟩ := hT.sound hy
  obtain ⟨c, hc, hiff⟩ := compare_list hsx hsy
  obtain ⟨c', hc', hiff'⟩ := compare_list hsx' hsy'
  have hitems : ItemsEqual xs ys ↔ ItemsEqual xs' ys' :=
    forall₂_congr (hT.items hx) (hT.items hy) fun x hmem y hmem' x' y' h h' => by
      rw [ih x hmem y hmem' x' y' h h']
  have hsame : c = c' := by
    rw [Bool.eq_iff_iff, hiff, hiff']
    exact same_or_equal_congr hitems (hT.lists hx hy)
  rw [hc, hc', hsame]

/-- If values compare alike, then so do maps. -/
theorem compare_map_eq {t t' u u' : Table Value} (ht : T (.map t) (.map t'))
    (hu : T (.map u) (.map u'))
    (ih : ∀ e ∈ t.content.entries, ∀ x, u.content.find? e.1 = some x →
      ∀ v' x', T e.2 v' → T x x' → compare x e.2 = compare x' v') :
    compare (.map t) (.map u) = compare (.map t') (.map u') := by
  obtain ⟨c, hc, hiff⟩ := compare_map t u
  obtain ⟨c', hc', hiff'⟩ := compare_map t' u'
  have hsize : t.content.size = t'.content.size := (hT.entries ht).length_eq
  have hsize' : u.content.size = u'.content.size := (hT.entries hu).length_eq
  have hentries : EntriesEqual t u ↔ EntriesEqual t' u' := by
    unfold EntriesEqual
    rw [hsize, hsize']
    refine and_congr_right fun _ => forall_mem_congr (hT.entries ht) fun e he e' hee' => ?_
    obtain ⟨key, v⟩ := e
    obtain ⟨key', v'⟩ := e'
    obtain ⟨rfl, hv⟩ := hee'
    have hfind : Option.Rel T (u.content.find? key) (u'.content.find? key) :=
      lookup_rel (hT.entries hu) key
    have hstep := ih (key, v) he
    dsimp only at hstep ⊢
    generalize u.content.find? key = found at hfind hstep ⊢
    generalize u'.content.find? key = found' at hfind ⊢
    cases hfind with
    | none => simp
    | @some x x' hx => simp [hstep x rfl v' x' hv hx]
  have hsame : c = c' := by
    rw [Bool.eq_iff_iff, hiff, hiff']
    exact same_or_equal_congr hentries (hT.maps ht hu)
  rw [hc, hc', hsame]

/-- Comparing does not tell related values apart. -/
theorem compare_eq {a a' b b' : Value} (ha : T a a') (hb : T b b') :
    a.compare b = a'.compare b' := by
  -- on the size of the two: items are smaller than their list, and values than their map
  induction hn : sizeOf a + sizeOf b using Nat.strongRecOn generalizing a a' b b' with
  | _ n ih =>
  subst hn
  have hkind := hT.kind ha
  have hkind' := hT.kind hb
  by_cases htype : a.type = b.type
  · cases hkind with
    | plain hplain =>
      cases hkind' with
      | plain _ => rfl
      | list _ _ => cases a <;> cases hplain <;> cases htype
      | map _ _ => cases a <;> cases hplain <;> cases htype
    | @list xs xs' _ _ =>
      cases hkind' with
      | plain hplain => cases b <;> cases hplain <;> cases htype
      | map _ _ => cases htype
      | @list ys ys' _ _ =>
        refine hT.compare_list_eq ha hb fun x hx y hy x' y' h h' => ih _ ?_ h h' rfl
        have := Sequence.sizeOf_lt_of_mem_items hx
        have := Sequence.sizeOf_lt_of_mem_items hy
        simp only [list.sizeOf_spec]
        omega
    | @map t t' _ _ =>
      cases hkind' with
      | plain hplain => cases b <;> cases hplain <;> cases htype
      | list _ _ => cases htype
      | @map u u' _ _ =>
        refine hT.compare_map_eq ha hb fun e he x hx v' x' h h' => ih _ ?_ h' h rfl
        have := Table.sizeOf_lt_of_mem_entries he
        have := Table.sizeOf_lt_of_find? hx
        simp only [map.sizeOf_spec]
        omega
  · have htype' : a'.type ≠ b'.type := by
      rw [← hkind.type_eq, ← hkind'.type_eq]
      exact htype
    rw [compare_eq_none htype, compare_eq_none htype']

end Comparing

/-! ## Matching values that are well formed -/

/-- Matching values, both as an evaluation can hold them. -/
structure Matched (ρ : Nat → Nat → Prop) (a a' : Value) : Prop where
  same : a.Matches ρ a'
  wellFormed : a.WellFormed
  wellFormed' : a'.WellFormed

namespace Matched

variable {ρ : Nat → Nat → Prop} {a a' b b' : Value} {xs xs' ys ys' : Sequence Value}
  {t t' u u' : Table Value} {id id' : Nat}

theorem plain (h : a.isPlain = true) : Matched ρ a a := ⟨.plain h, .plain h, .plain h⟩

theorem sound (h : Matched ρ (.list xs) (.list xs')) : xs.content.Sound := h.wellFormed.sound

theorem sound' (h : Matched ρ (.list xs) (.list xs')) : xs'.content.Sound := h.wellFormed'.sound

theorem items (h : Matched ρ (.list xs) (.list xs')) :
    Forall₂ (Matched ρ) xs.items xs'.items := by
  obtain ⟨-, hitems⟩ := matches_list_iff.mp h.same
  refine List.forall₂_iff_zip.mpr ⟨hitems.length_eq, fun {x x'} hmem => ?_⟩
  exact ⟨List.forall₂_zip hitems hmem,
    h.wellFormed.stored x (Rope.mem_stored_of_mem_stretch (List.of_mem_zip hmem).1),
    h.wellFormed'.stored x' (Rope.mem_stored_of_mem_stretch (List.of_mem_zip hmem).2)⟩

theorem entries (h : Matched ρ (.map t) (.map t')) :
    Forall₂ (EntryRel (Matched ρ)) t.content.entries t'.content.entries := by
  obtain ⟨hkeys, hvalues⟩ := forall₂_entryRel.mp (matches_map_iff.mp h.same).2
  refine forall₂_entryRel.mpr ⟨hkeys, List.forall₂_iff_zip.mpr ⟨hvalues.length_eq, ?_⟩⟩
  intro v v' hmem
  exact ⟨List.forall₂_zip hvalues hmem, h.wellFormed.values v (List.of_mem_zip hmem).1,
    h.wellFormed'.values v' (List.of_mem_zip hmem).2⟩

theorem size_eq (h : Matched ρ (.list xs) (.list xs')) : xs.size = xs'.size := by
  have hlength := h.items.length_eq
  rwa [Sequence.items, Sequence.items, h.sound.length_items, h.sound'.length_items] at hlength

theorem kind (h : Matched ρ a a') : a.Matches (fun _ _ => True) a' :=
  h.same.mono fun _ _ _ => trivial

/-- Comparing does not tell matching values apart, if identities are paired one to one. -/
theorem comparing (hρ : ∀ i j k l, ρ i j → ρ k l → (i = k ↔ j = l)) : Comparing (Matched ρ) where
  kind := kind
  sound h := ⟨h.sound, h.sound'⟩
  items := items
  entries := entries
  lists hx hy := .inl (hρ _ _ _ _ (matches_list_iff.mp hx.same).1 (matches_list_iff.mp hy.same).1)
  maps ht hu := .inl (hρ _ _ _ _ (matches_map_iff.mp ht.same).1 (matches_map_iff.mp hu.same).1)

/-- In matching lists the same index is that of matching items. -/
theorem item_matches (h : Matched ρ (.list xs) (.list xs')) (i : Nat) :
    (item xs i).Matches ρ (item xs' i) := by
  obtain ⟨-, hitems⟩ := matches_list_iff.mp h.same
  rw [item_eq_getElem? h.sound, item_eq_getElem? h.sound']
  by_cases hi : i < xs.items.length
  · have hi' : i < xs'.items.length := by rw [← hitems.length_eq]; exact hi
    rw [List.getElem?_eq_getElem hi, List.getElem?_eq_getElem hi']
    exact (List.forall₂_iff_get.mp hitems).2 i hi hi'
  · rw [List.getElem?_eq_none (by omega), List.getElem?_eq_none (by rw [← hitems.length_eq]; omega)]
    exact .plain rfl

/-! ## Making lists and maps -/

theorem ofList_matches {vs vs' : List Value} (hempty : ρ Sequence.emptyId Sequence.emptyId)
    (hid : ρ id id') (h : Forall₂ (Matches ρ) vs vs') :
    Matches ρ (.list (.ofList id vs)) (.list (.ofList id' vs')) := by
  rw [matches_list_iff, Sequence.items_ofList, Sequence.items_ofList]
  refine ⟨?_, h⟩
  cases h with
  | nil => exact hempty
  | cons _ _ => exact hid

theorem append_matches (hx : Matched ρ (.list xs) (.list xs'))
    (hy : Matched ρ (.list ys) (.list ys'))
    (hid : ρ id id') : Matches ρ (.list (xs.append id ys)) (.list (xs'.append id' ys')) := by
  obtain ⟨hidx, hitemsx⟩ := matches_list_iff.mp hx.same
  obtain ⟨hidy, hitemsy⟩ := matches_list_iff.mp hy.same
  rw [matches_list_iff, Sequence.items_append id hx.sound hy.sound,
    Sequence.items_append id' hx.sound' hy.sound', hx.size_eq, hy.size_eq]
  refine ⟨?_, List.forall₂_take _ (List.rel_append hitemsx hitemsy)⟩
  have hempty : xs.isEmpty = xs'.isEmpty := by
    rw [Bool.eq_iff_iff, Sequence.isEmpty_iff, Sequence.isEmpty_iff, hx.size_eq]
  have hempty' : ys.isEmpty = ys'.isEmpty := by
    rw [Bool.eq_iff_iff, Sequence.isEmpty_iff, Sequence.isEmpty_iff, hy.size_eq]
  rw [Sequence.append, Sequence.append, hempty, hempty']
  split
  · exact hidy
  split
  · exact hidx
  · exact hid

theorem extract_matches (hx : Matched ρ (.list xs) (.list xs'))
    (hempty : ρ Sequence.emptyId Sequence.emptyId) (hid : ρ id id') (start stop : Nat) :
    Matches ρ (.list (xs.extract id start stop)) (.list (xs'.extract id' start stop)) := by
  obtain ⟨hidx, hitems⟩ := matches_list_iff.mp hx.same
  rw [matches_list_iff, Sequence.items_extract id hx.sound, Sequence.items_extract id' hx.sound',
    hx.size_eq]
  refine ⟨?_, List.forall₂_drop _ (List.forall₂_take _ hitems)⟩
  rw [Sequence.extract, Sequence.extract, hx.size_eq]
  split
  · exact hidx
  split
  · exact hempty
  · exact hid

theorem join_matches (ht : Matched ρ (.map t) (.map t')) (hu : Matched ρ (.map u) (.map u'))
    (hid : ρ id id') :
    Matches ρ (.map ⟨id, t.content.append u.content⟩) (.map ⟨id', t'.content.append u'.content⟩) :=
  matches_map_iff.mpr
    ⟨hid, append_rel (matches_map_iff.mp ht.same).2 (matches_map_iff.mp hu.same).2⟩

theorem entry_matches (ht : Matched ρ (.map t) (.map t')) (key : String) :
    (entry t key).Matches ρ (entry t' key) := by
  have hfind := lookup_rel (matches_map_iff.mp ht.same).2 (keyHash key)
  unfold entry Dict.find?
  generalize t.content.entries.lookup (keyHash key) = found at hfind ⊢
  generalize t'.content.entries.lookup (keyHash key) = found' at hfind ⊢
  cases hfind with
  | none => exact .plain rfl
  | some h => exact h

/-- The bounds of a slice are two numbers, whatever the list of them is made of. -/
theorem sliceBounds?_eq (h : Matched ρ (.list xs) (.list xs')) :
    sliceBounds? xs = sliceBounds? xs' := by
  have hstart := h.item_matches 0
  have hstop := h.item_matches 1
  unfold sliceBounds?
  rw [h.size_eq]
  generalize item xs 0 = start at hstart ⊢
  generalize item xs' 0 = start' at hstart ⊢
  generalize item xs 1 = stop at hstop ⊢
  generalize item xs' 1 = stop' at hstop ⊢
  cases hstart with
  | plain _ =>
    cases hstop with
    | plain _ => rfl
    | _ => split <;> simp_all
  | _ => simp

/-! ## One operator each -/

theorem truthy_eq (h : Matched ρ a a') : a.truthy = a'.truthy := by
  cases h.same with
  | @list xs xs' _ _ =>
    have hsize : xs.content.size = xs'.content.size := h.size_eq
    simp only [truthy, Sequence.isEmpty, Rope.isEmpty, hsize]
  | _ => rfl

theorem orderable_eq (ha : Matched ρ a a') (hb : Matched ρ b b') :
    a.orderable b = a'.orderable b' := by
  cases ha.same with
  | plain hplain =>
    cases hb.same with
    | plain _ => rfl
    | _ => cases a <;> rfl
  | _ => rfl

theorem add_rel (ha : Matched ρ a a') (hb : Matched ρ b b') (hid : ρ id id') :
    Option.Rel (Matches ρ) (a.add id b) (a'.add id' b') := by
  cases ha.same with
  | plain hplain =>
    cases hb.same with
    | plain hplain' =>
      cases a <;> cases hplain <;> cases b <;> cases hplain' <;>
        first | exact .none | exact .some (.plain rfl)
    | _ => cases a <;> cases hplain <;> exact .none
  | list _ _ =>
    cases hb.same with
    | plain hplain' => cases b <;> cases hplain' <;> exact .none
    | list _ _ => exact .some (ha.append_matches hb hid)
    | map _ _ => exact .none
  | map _ _ =>
    cases hb.same with
    | plain hplain' => cases b <;> cases hplain' <;> exact .none
    | list _ _ => exact .none
    | map _ _ => exact .some (ha.join_matches hb hid)

theorem index_rel (ha : Matched ρ a a') (hb : Matched ρ b b') :
    Option.Rel (Matches ρ) (a.index b) (a'.index b') := by
  cases hb.same with
  | plain hplain' =>
    cases ha.same with
    | plain hplain =>
      cases a <;> cases hplain <;> cases b <;> cases hplain' <;> try exact .none
      -- a character of a string, or void
      refine .some (.plain ?_)
      split <;> rfl
    | list _ _ =>
      cases b <;> cases hplain' <;> try exact .none
      refine .some ?_
      split
      · exact ha.item_matches _
      · exact .plain rfl
    | map _ _ =>
      cases b <;> cases hplain' <;> try exact .none
      exact .some (ha.entry_matches _)
  | _ =>
    cases ha.same with
    | plain hplain => cases a <;> cases hplain <;> exact .none
    | _ => exact .none

theorem range_rel (ha : Matched ρ a a') (hb : Matched ρ b b')
    (hempty : ρ Sequence.emptyId Sequence.emptyId) (hid : ρ id id') :
    Option.Rel (Matches ρ) (a.range id b) (a'.range id' b') := by
  cases hb.same with
  | plain hplain' =>
    cases ha.same with
    | plain hplain =>
      cases a <;> cases hplain <;> cases b <;> cases hplain' <;> try exact .none
      · -- the numbers between two
        refine .some (ofList_matches hempty hid (List.forall₂_same.mpr fun v hv => .plain ?_))
        exact isPlain_of_isScalar (isScalar_of_mem_numbers hv)
      · exact .some (.plain rfl)
    | @list xs xs' _ _ =>
      cases b <;> cases hplain' <;> try exact .none
      rw [range, range, ha.size_eq]
      exact .some (ha.extract_matches hempty hid _ _)
    | map _ _ => exact .none
  | @list bs bs' _ _ =>
    have hbounds := hb.sliceBounds?_eq
    cases ha.same with
    | plain hplain =>
      cases a <;> cases hplain <;> try exact .none
      rw [range, range, hbounds]
      cases sliceBounds? bs' with
      | none => exact .none
      | some bounds => exact .some (.plain rfl)
    | list _ _ =>
      rw [range, range, hbounds]
      cases sliceBounds? bs' with
      | none => exact .none
      | some bounds => exact .some (ha.extract_matches hempty hid _ _)
    | map _ _ => exact .none
  | map _ _ =>
    cases ha.same with
    | plain hplain => cases a <;> cases hplain <;> exact .none
    | _ => exact .none

end Matched

/-! ## Results -/

/-- Results with related values, or the same error. -/
inductive Agree {α : Type} (R : α → α → Prop) : Except Cause α → Except Cause α → Prop
  | ok {x y : α} (h : R x y) : Agree R (.ok x) (.ok y)
  | error (c : Cause) : Agree R (.error c) (.error c)

theorem Agree.mono {α : Type} {R Q : α → α → Prop} {r r' : Except Cause α} (h : Agree R r r')
    (hRQ : ∀ x y, r = .ok x → r' = .ok y → R x y → Q x y) : Agree Q r r' := by
  cases h with
  | ok h => exact .ok (hRQ _ _ rfl rfl h)
  | error c => exact .error c

theorem agree_of_rel {R : Value → Value → Prop} {r r' : Option Value} (c : Cause) :
    Option.Rel R r r' →
    Agree R (match r with | some v => .ok v | none => .error c)
      (match r' with | some v => .ok v | none => .error c) := by
  intro h
  cases h with
  | none => exact .error c
  | some h => exact .ok h

namespace Matched

variable {ρ : Nat → Nat → Prop} {a a' b b' : Value} {id id' : Nat}

/-- If comparing does not tell the operands apart, then no operator does. -/
theorem apply_agree (ha : Matched ρ a a') (hb : Matched ρ b b')
    (hcompare : a.compare b = a'.compare b') (hempty : ρ Sequence.emptyId Sequence.emptyId)
    (hid : ρ id id') (op : BinaryOp) :
    Agree (Matches ρ) (op.apply id a b) (op.apply id' a' b') := by
  unfold BinaryOp.apply
  rw [← ha.same.type_eq, ← hb.same.type_eq]
  cases op with
  | add => exact agree_of_rel _ (ha.add_rel hb hid)
  | index => exact agree_of_rel _ (ha.index_rel hb)
  | range => exact agree_of_rel _ (ha.range_rel hb hempty hid)
  | subtract | multiply | divide | power =>
    dsimp only
    cases ha.same with
    | plain hplain =>
      cases hb.same with
      | plain hplain' =>
        cases a <;> cases hplain <;> cases b <;> cases hplain' <;> try exact .error _
        next x y =>
        dsimp only
        cases arithmetic _ x y with
        | ok z => exact .ok (.plain rfl)
        | error c => exact .error c
      | _ => cases a <;> cases hplain <;> exact .error _
    | _ => exact .error _
  | equal | notEqual =>
    dsimp only [equal]
    rw [← hcompare]
    exact .ok (.plain rfl)
  | less | greater | lessEqual | greaterEqual =>
    dsimp only
    rw [← hcompare, ← ha.orderable_eq hb]
    split
    · exact .ok (.plain rfl)
    · exact .error _
  | and =>
    dsimp only
    rw [← ha.truthy_eq]
    split
    · exact .ok hb.same
    · exact .ok ha.same
  | or =>
    dsimp only
    rw [← ha.truthy_eq]
    split
    · exact .ok ha.same
    · exact .ok hb.same

theorem unary_eq (ha : Matched ρ a a') (op : UnaryOp) : op.apply a = op.apply a' := by
  have htruthy := ha.truthy_eq
  cases op with
  | negate => cases ha.same <;> rfl
  | not => rw [UnaryOp.apply, UnaryOp.apply, htruthy]

theorem unary_matched (ha : Matched ρ a a') (op : UnaryOp) :
    Agree (Matched ρ) (op.apply a) (op.apply a') := by
  rw [← ha.unary_eq op]
  cases op with
  | negate => cases a <;> first | exact .error _ | exact .ok (.plain rfl)
  | not => exact .ok (.plain rfl)

/-- The results are well formed too. -/
theorem apply_matched (ha : Matched ρ a a') (hb : Matched ρ b b')
    (hcompare : a.compare b = a'.compare b') (hempty : ρ Sequence.emptyId Sequence.emptyId)
    (hid : ρ id id') (op : BinaryOp) :
    Agree (Matched ρ) (op.apply id a b) (op.apply id' a' b') := by
  have hI := Invariant.lawful_wellFormed
  refine (ha.apply_agree hb hcompare hempty hid op).mono fun v v' hv hv' hsame => ?_
  obtain ⟨_, -, -, hwell⟩ := hI.apply (w := ()) trivial ha.wellFormed hb.wellFormed hv
  obtain ⟨_, -, -, hwell'⟩ := hI.apply (w := ()) trivial ha.wellFormed' hb.wellFormed' hv'
  exact ⟨hsame, hwell v (List.mem_singleton_self v), hwell' v' (List.mem_singleton_self v')⟩

end Matched

end Value

end Clausal
