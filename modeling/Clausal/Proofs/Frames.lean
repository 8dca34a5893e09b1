import Clausal.Proofs.Labelled
import Clausal.Proofs.Scope

/-!
# Frames that fit their names

`Store.fits` says that a frame and those around it have room for the names of some scopes. It is
what the reading of slots rests on: a slot inside the scopes is there (`Store.exists_slot`), and
reading by name and reading by index and depth find the same value (`Store.named?_eq`). Frames are
only ever added and their slots only rewritten (`Store.Grows`), so what fits goes on fitting
(`Store.fits_mono`). A frame that is being filled has room for more names than can be seen in it
yet (`Store.HasRoom`).
-/

namespace Clausal

namespace Scopes

/-- Counting levels from `start` adds `start` to them. -/
theorem locateFrom_eq_map (name : String) (start : Nat) (scopes : Scopes) :
    locateFrom name start scopes =
      (locateFrom name 0 scopes).map fun found => (found.1, found.2 + start) := by
  induction scopes generalizing start with
  | nil => rfl
  | cons names scopes ih =>
    rw [locateFrom, locateFrom]
    cases lastIndex? name names with
    | some index => simp
    | none =>
      simp only
      rw [ih (start + 1), ih (0 + 1), Option.map_map]
      congr 1
      funext found
      simp only [Function.comp, Prod.mk.injEq, true_and]
      omega

end Scopes

namespace Store

variable {κ : Type} {s t u : Store κ} {scopes : Scopes} {frame index depth : Nat} {name : String}

/-! ## Growing -/

/-- `t` has all frames of `s`, each with as many slots and inside the same frame. -/
def Grows (s t : Store κ) : Prop :=
  ∀ (i : Nat) (f : Frame), s.frames[i]? = some f →
    ∃ g, t.frames[i]? = some g ∧ g.slots.size = f.slots.size ∧ g.parent = f.parent

theorem Grows.refl (s : Store κ) : s.Grows s := fun _ f hf => ⟨f, hf, rfl, rfl⟩

theorem Grows.trans (hst : s.Grows t) (htu : t.Grows u) : s.Grows u := by
  intro i f hf
  obtain ⟨g, hg, hsize, hparent⟩ := hst i f hf
  obtain ⟨k, hk, hsize', hparent'⟩ := htu i g hg
  exact ⟨k, hk, hsize'.trans hsize, hparent'.trans hparent⟩

theorem Grows.of_frames_eq (h : t.frames = s.frames) : s.Grows t :=
  fun _ f hf => ⟨f, by rw [h]; exact hf, rfl, rfl⟩

theorem grows_push (s : Store κ) (slots : Array Value) (parent : Option Nat) :
    s.Grows (s.push slots parent).2 := by
  intro i f hf
  obtain ⟨hi, -⟩ := Array.getElem?_eq_some_iff.mp hf
  refine ⟨f, ?_, rfl, rfl⟩
  rw [frames_push, Array.getElem?_push_lt hi, ← hf, Array.getElem?_eq_getElem hi]

theorem grows_write (s : Store κ) (frame index : Nat) (v : Value) :
    s.Grows (s.write frame index v) := by
  intro i f hf
  by_cases h : frame = i
  · subst h
    refine ⟨{ f with slots := f.slots.setIfInBounds index v }, ?_, ?_, rfl⟩
    · rw [frames_write, Array.getElem?_modify, if_pos rfl, hf]
      rfl
    · exact Array.size_setIfInBounds
  · refine ⟨f, ?_, rfl, rfl⟩
    rw [frames_write, Array.getElem?_modify, if_neg h, hf]

/-! ## Fitting -/

theorem fits_nil (s : Store κ) (frame : Option Nat) : s.fits [] frame = true := rfl

theorem fits_cons (s : Store κ) (scopes : Scopes) (names : List String) (frame : Nat) :
    s.fits (names :: scopes) (some frame) =
      match s.frames[frame]? with
      | some ⟨slots, parent⟩ => names.length ≤ slots.size && s.fits scopes parent
      | none => false := rfl

theorem fits_cons_iff {names : List String} :
    s.fits (names :: scopes) (some frame) = true ↔
      ∃ f, s.frames[frame]? = some f ∧ names.length ≤ f.slots.size ∧
        s.fits scopes f.parent = true := by
  rw [fits_cons]
  cases s.frames[frame]? with
  | none => simp
  | some f => simp

/-- One slot is room for one name and not for two. -/
example :
    let s : Store Closure := { frames := #[⟨#[.void], none⟩] }
    s.fits [["x"]] (some 0) = true ∧ s.fits [["x", "y"]] (some 0) = false := by decide +kernel

theorem fits_mono (h : s.Grows t) {frame : Option Nat} (hfit : s.fits scopes frame = true) :
    t.fits scopes frame = true := by
  induction scopes generalizing frame with
  | nil => exact fits_nil t frame
  | cons names scopes ih =>
    cases frame with
    | none => cases hfit
    | some frame =>
      obtain ⟨f, hf, hsize, hrest⟩ := fits_cons_iff.mp hfit
      obtain ⟨g, hg, hsize', hparent⟩ := h frame f hf
      exact fits_cons_iff.mpr ⟨g, hg, by omega, by rw [hparent]; exact ih hrest⟩

/-! ## Slots -/

theorem slot?_zero {f : Frame} (h : s.frames[frame]? = some f) :
    s.slot? frame index 0 = f.slots[index]? := by
  change (s.frames[frame]?).bind (·.slots[index]?) = _
  rw [h]
  rfl

theorem slot?_succ {f : Frame} {parent : Nat} (h : s.frames[frame]? = some f)
    (hparent : f.parent = some parent) :
    s.slot? frame index (depth + 1) = s.slot? parent index depth := by
  obtain ⟨slots, up⟩ := f
  subst hparent
  change (s.ancestor (depth + 1) frame).bind _ = _
  rw [ancestor, h]
  rfl

/-- In a frame that fits some scopes, a slot inside them is there. -/
theorem exists_slot (hfit : s.fits scopes (some frame) = true)
    (h : scopes.InRange index depth) : ∃ v, s.slot? frame index depth = some v := by
  induction scopes generalizing frame depth with
  | nil =>
    obtain ⟨names, hnames, -⟩ := h
    cases hnames
  | cons names scopes ih =>
    obtain ⟨f, hf, hsize, hrest⟩ := fits_cons_iff.mp hfit
    obtain ⟨found, hfound, hlt⟩ := h
    cases depth with
    | zero =>
      cases hfound
      exact ⟨_, by rw [slot?_zero hf, Array.getElem?_eq_getElem (Nat.lt_of_lt_of_le hlt hsize)]⟩
    | succ depth =>
      rw [List.getElem?_cons_succ] at hfound
      cases hparent : f.parent with
      | none =>
        -- the next level has a name, so there must be a frame for it
        rw [hparent] at hrest
        cases scopes with
        | nil => cases hfound
        | cons _ _ => cases hrest
      | some parent =>
        rw [slot?_succ hf hparent]
        rw [hparent] at hrest
        exact ih hrest ⟨found, hfound, hlt⟩

/-! ## Room -/

/-- There is a frame with `size` slots inside one that fits the scopes. -/
def HasRoom (s : Store κ) (scopes : Scopes) (frame size : Nat) : Prop :=
  ∃ f, s.frames[frame]? = some f ∧ f.slots.size = size ∧ s.fits scopes f.parent = true

variable {size : Nat}

theorem hasRoom_push {slots : Array Value} {parent : Option Nat}
    (hfit : s.fits scopes parent = true) :
    (s.push slots parent).2.HasRoom scopes s.frames.size slots.size := by
  refine ⟨⟨slots, parent⟩, ?_, rfl, fits_mono (s.grows_push slots parent) hfit⟩
  rw [frames_push, Array.getElem?_push_size]

theorem HasRoom.mono (h : s.HasRoom scopes frame size) (hst : s.Grows t) :
    t.HasRoom scopes frame size := by
  obtain ⟨f, hf, hsize, hfit⟩ := h
  obtain ⟨g, hg, hsize', hparent⟩ := hst frame f hf
  exact ⟨g, hg, hsize'.trans hsize, hparent ▸ fits_mono hst hfit⟩

theorem HasRoom.fits (h : s.HasRoom scopes frame size) {names : List String}
    (hnames : names.length ≤ size) : s.fits (names :: scopes) (some frame) = true := by
  obtain ⟨f, hf, hsize, hfit⟩ := h
  exact fits_cons_iff.mpr ⟨f, hf, by omega, hfit⟩

theorem HasRoom.exists_slot (h : s.HasRoom scopes frame size) (hindex : index < size) :
    ∃ v, s.slot? frame index 0 = some v := by
  obtain ⟨f, hf, hsize, -⟩ := h
  exact ⟨_, by rw [slot?_zero hf, Array.getElem?_eq_getElem (by omega)]⟩

/-! ## Names -/

/-- The latest slot of a name is the slot at the last place of the name. -/
theorem lookup_reverse_zip {names : List String} {slots : List Value}
    (h : names.length ≤ slots.length) :
    (names.zip slots).reverse.lookup name =
      (Scopes.lastIndex? name names).bind fun index => slots[index]? := by
  induction names generalizing slots with
  | nil => rfl
  | cons n ns ih =>
    obtain _ | ⟨v, vs⟩ := slots
    · cases h
    · rw [List.zip_cons_cons, List.reverse_cons, List.lookup_append,
        ih (by simpa using h), Scopes.lastIndex?]
      cases hlast : Scopes.lastIndex? name ns with
      | some index =>
        -- the name stands further on, and there is a slot for it
        have hlt : index < vs.length := by
          have := Scopes.lastIndex?_lt hlast
          simp only [List.length_cons] at h
          omega
        simp [List.getElem?_eq_getElem hlt]
      | none =>
        by_cases hn : n = name
        · subst hn; simp
        · have hne : (name == n) = false := by simpa using Ne.symm hn
          simp [List.lookup_cons, hne, hn]

theorem named?_eq (hfit : s.fits scopes (some frame) = true) :
    s.named? name scopes (some frame) =
      (Scopes.locateFrom name 0 scopes).bind fun found => s.slot? frame found.1 found.2 := by
  induction scopes generalizing frame with
  | nil => rfl
  | cons names scopes ih =>
    obtain ⟨f, hf, hsize, hrest⟩ := fits_cons_iff.mp hfit
    rw [named?, Scopes.locateFrom]
    simp only [hf]
    rw [lookup_reverse_zip (by simpa using hsize)]
    cases hlast : Scopes.lastIndex? name names with
    | some index =>
      have hlt := Nat.lt_of_lt_of_le (Scopes.lastIndex?_lt hlast) hsize
      simp only [Option.bind_some, Array.getElem?_toList, slot?_zero hf,
        Array.getElem?_eq_getElem hlt, Option.some_or]
    | none =>
      simp only [Option.bind_none, Option.none_or]
      rw [Scopes.locateFrom_eq_map, Option.bind_map]
      cases hparent : f.parent with
      | none =>
        rw [hparent] at hrest
        cases scopes with
        | nil => rfl
        | cons _ _ => cases hrest
      | some parent =>
        rw [hparent] at hrest
        rw [ih hrest]
        congr 1
        funext found
        exact (slot?_succ hf hparent).symm

end Store

end Clausal
