import Clausal.Proofs.Layout

/-!
# The grammar of numbers

A number literal is found by its characters alone. Its whole part is the longest run of name
characters, and it says in which base it is written. A point behind it that no second point follows
belongs to it as well, and so does the longest run of name characters behind the point. The literal
is well formed if all of these characters are digits of the base, but for `0x` in front, and if only
a decimal one has a point (`Literal.WellFormed`).

* `Literal.Offends`: what is the first fault of a literal, and which characters stand before it.
* `Scan.digits_cases`: the digits read are the whole run, or they end at the first character of it
  that is none.
* `Scan.Lead`: what is read to learn the base is `0x`, or at most a zero that is one of the digits.
* `Scan.number_verdict`, `Scan.numbers_follow_their_grammar`: exactly the well-formed literals are
  read, each as a whole, and the others up to their first fault.
-/

namespace Clausal

/-- The bases in which numbers are written. -/
inductive Base where
  | octal | decimal | hexadecimal
  deriving DecidableEq

namespace Base

/-- The characters that are digits in a base. -/
def digits : Base → List Char
  | .octal => "01234567".toList
  | .decimal => "0123456789".toList
  | .hexadecimal => "0123456789abcdefABCDEF".toList

/-- A base as a number. -/
def radix : Base → Nat
  | .octal => 8
  | .decimal => 10
  | .hexadecimal => 16

end Base

/-! ## Literals -/

namespace Literal

/-- The longest run of name characters in front. -/
def run (cs : List Char) : List Char := cs.takeWhile Scan.isNameChar

/-- What stands behind that run. -/
def behind (cs : List Char) : List Char := cs.dropWhile Scan.isNameChar

/-- The base of a whole part: sixteen if it starts with `0x`, eight if with `0` and a digit. -/
def base (w : List Char) : Base :=
  match w with
  | '0' :: 'x' :: _ => .hexadecimal
  | '0' :: d :: _ => if d ∈ Base.decimal.digits then .octal else .decimal
  | _ => .decimal

/-- What a whole part starts with and is no digit. -/
def announcement : Base → List Char
  | .hexadecimal => ['0', 'x']
  | .octal | .decimal => []

/-- The characters of a whole part that have to be digits. -/
def figures (w : List Char) : List Char := w.drop (announcement (base w)).length

/-- All characters are digits of the base. -/
def AllDigits (b : Base) (cs : List Char) : Prop := ∀ c ∈ cs, c ∈ b.digits

/-- The characters behind the point. -/
def fraction (cs : List Char) : List Char := run (behind cs).tail

/-- The whole part consists of digits, and if there is a point it is decimal and so is what stands
behind the point. -/
structure WellFormed (cs : List Char) : Prop where
  whole : AllDigits (base (run cs)) (figures (run cs))
  fraction : Scan.opensFraction (behind cs) = true →
    base (run cs) = .decimal ∧ AllDigits .decimal (fraction cs)

/-- All characters of a literal. -/
def extent (cs : List Char) : List Char :=
  if Scan.opensFraction (behind cs) then run cs ++ '.' :: fraction cs else run cs

/-- The first fault of a literal: the characters before it, the one that is at fault, and why. -/
inductive Offends (cs : List Char) : List Char → Char → Cause → Prop
  /-- A character of the whole part is no digit. -/
  | figure {good more : List Char} {bad : Char} (h : figures (run cs) = good ++ bad :: more)
    (hgood : AllDigits (base (run cs)) good) (hbad : bad ∉ (base (run cs)).digits) :
    Offends cs (announcement (base (run cs)) ++ good) bad .badDigit
  /-- There is a point, but the base is not ten. -/
  | point (hwhole : AllDigits (base (run cs)) (figures (run cs)))
    (hpoint : Scan.opensFraction (behind cs) = true) (hbase : base (run cs) ≠ .decimal) :
    Offends cs (run cs) '.' .fractionBase
  /-- A character behind the point is no digit. -/
  | fraction {good more : List Char} {bad : Char}
    (hwhole : AllDigits (base (run cs)) (figures (run cs)))
    (hpoint : Scan.opensFraction (behind cs) = true) (hbase : base (run cs) = .decimal)
    (h : fraction cs = good ++ bad :: more) (hgood : AllDigits .decimal good)
    (hbad : bad ∉ Base.decimal.digits) : Offends cs (run cs ++ '.' :: good) bad .badDigit

theorem run_append_behind (cs : List Char) : run cs ++ behind cs = cs :=
  List.takeWhile_append_dropWhile

/-- A literal with a fault is not well formed. -/
theorem Offends.not_wellFormed {cs before : List Char} {bad : Char} {cause : Cause}
    (h : Offends cs before bad cause) : ¬ WellFormed cs := by
  intro hwell
  cases h with
  | figure h _ hbad => exact hbad (hwell.whole _ (by rw [h]; simp))
  | point _ hpoint hbase => exact hbase (hwell.fraction hpoint).1
  | fraction _ hpoint _ h _ hbad => exact hbad ((hwell.fraction hpoint).2 _ (by rw [h]; simp))

theorem Offends.kind {cs before : List Char} {bad : Char} {cause : Cause}
    (h : Offends cs before bad cause) : cause.kind = .lexical := by
  cases h <;> rfl

end Literal

namespace Scan

open Literal

/-! ## Digits -/

/-- A property of all characters of ASCII, one by one. -/
theorem forall_ascii {P : Char → Prop} (h : ∀ n < 128, P (Char.ofNat n)) (c : Char)
    (hc : c.toNat < 128) : P c := by
  have hn := h c.toNat hc
  rwa [Char.ofNat_toNat] at hn

theorem toNat_lt_of_isDigit {c : Char} (h : c.isDigit = true) : c.toNat < 128 := by
  have hle : c.toNat ≤ 57 := by
    simp only [Char.isDigit, Bool.and_eq_true, decide_eq_true_eq, UInt32.le_iff_toNat_le] at h
    exact h.2
  omega

theorem toNat_lt_of_digitValue? {base : Nat} {c : Char} (h : (digitValue? base c).isSome = true) :
    c.toNat < 128 := by
  have hle {last : Char} (hc : c ≤ last) (hlast : last.toNat < 128) : c.toNat < 128 :=
    Nat.lt_of_le_of_lt hc hlast
  unfold digitValue? at h
  split at h
  · next hdigit => exact toNat_lt_of_isDigit hdigit
  split at h
  · next hlower =>
    simp only [Bool.and_eq_true, decide_eq_true_eq] at hlower
    exact hle hlower.2 (by decide)
  split at h
  · next hupper =>
    simp only [Bool.and_eq_true, decide_eq_true_eq] at hupper
    exact hle hupper.2 (by decide)
  · cases h

/-- A character has a value in a base if it is one of the digits. -/
theorem isSome_digitValue?_iff (b : Base) (c : Char) :
    (digitValue? b.radix c).isSome = true ↔ c ∈ b.digits := by
  constructor
  · intro h
    refine forall_ascii (P := fun c => (digitValue? b.radix c).isSome = true → c ∈ b.digits) ?_ c
      (toNat_lt_of_digitValue? h) h
    cases b <;> decide +kernel
  · have hall : (b.digits.all fun d => (digitValue? b.radix d).isSome) = true := by
      cases b <;> decide
    exact List.all_eq_true.mp hall c

theorem isDigit_iff (c : Char) : c.isDigit = true ↔ c ∈ Base.decimal.digits := by
  constructor
  · intro h
    refine forall_ascii (P := fun c => c.isDigit = true → c ∈ Base.decimal.digits) ?_ c
      (toNat_lt_of_isDigit h) h
    decide +kernel
  · have hall : Base.decimal.digits.all Char.isDigit = true := by decide
    exact List.all_eq_true.mp hall c

/-- The digits read are the whole run, or they end at the first character of it that is none. -/
theorem digits_cases {α : Type} (b : Base) (add : α → Nat → α) (acc : α) (cs : List Char)
    (p : Place) :
    (AllDigits b (run cs) ∧
      ∃ a, digits b.radix add acc cs p = (.ok a, ⟨behind cs, p.afterAll (run cs)⟩)) ∨
    ∃ good bad more rest, run cs = good ++ bad :: more ∧ cs = good ++ bad :: rest ∧
      AllDigits b good ∧ bad ∉ b.digits ∧ digits b.radix add acc cs p =
        (.error ⟨p.afterAll good, .badDigit⟩, ⟨rest, p.afterAll (good ++ [bad])⟩) := by
  induction cs generalizing acc p with
  | nil => exact .inl ⟨nofun, acc, rfl⟩
  | cons c cs ih =>
    cases hname : isNameChar c with
    | false =>
      have hrun : run (c :: cs) = [] := by simp [run, hname]
      have hbehind : behind (c :: cs) = c :: cs := by simp [behind, hname]
      refine .inl ⟨by rw [hrun]; exact nofun, acc, ?_⟩
      simp [digits, hname, hrun, hbehind]
    | true =>
      have hrun : run (c :: cs) = c :: run cs := by simp [run, hname]
      have hbehind : behind (c :: cs) = behind cs := by simp [behind, hname]
      rw [hrun, hbehind]
      cases hvalue : digitValue? b.radix c with
      | none =>
        have hbad : c ∉ b.digits := by
          rw [← isSome_digitValue?_iff, hvalue]
          decide
        exact .inr ⟨[], c, run cs, cs, rfl, rfl, nofun, hbad, by simp [digits, hname, hvalue]⟩
      | some d =>
        have hgood : c ∈ b.digits := (isSome_digitValue?_iff b c).mp (by rw [hvalue]; rfl)
        simp only [digits, hname, if_true, hvalue]
        obtain ⟨hall, a, ha⟩ | ⟨good, bad, more, rest, h, hcs, hall, hbad, herror⟩ :=
          ih (add acc d) (p.after c)
        · exact .inl ⟨List.forall_mem_cons.mpr ⟨hgood, hall⟩, a, ha⟩
        · refine .inr ⟨c :: good, bad, more, rest, by rw [h]; rfl, by rw [hcs]; rfl,
            List.forall_mem_cons.mpr ⟨hgood, hall⟩, hbad, herror⟩

/-! ## Numbers -/

theorem run_cons {c : Char} (hc : isNameChar c = true) (cs : List Char) :
    run (c :: cs) = c :: run cs := by
  rw [run, List.takeWhile_cons_of_pos hc, run]

theorem isNameChar_of_isDigit {c : Char} (hc : c.isDigit = true) : isNameChar c = true := by
  simp [isNameChar, Char.isAlphanum, hc]

/-- What is read to learn the base of a literal: what announces it, and at most a zero, which is a
digit itself. -/
structure Lead (cs : List Char) (p : Place) (zero rest : List Char) : Prop where
  digits : AllDigits (base (run cs)) zero
  announced : announcedBase ⟨cs, p⟩ = ((base (run cs)).radix,
    ⟨rest, p.afterAll (announcement (base (run cs)) ++ zero)⟩)
  chars : cs = announcement (base (run cs)) ++ zero ++ rest
  figures : figures (run cs) = zero ++ run rest
  behind : behind cs = behind rest

theorem Lead.run_eq {cs zero rest : List Char} {p : Place} (h : Lead cs p zero rest) :
    run cs = announcement (base (run cs)) ++ zero ++ run rest := by
  have hboth : run cs ++ Literal.behind cs =
      announcement (base (run cs)) ++ zero ++ run rest ++ Literal.behind cs := by
    rw [run_append_behind, h.behind, List.append_assoc, run_append_behind]
    exact h.chars
  exact List.append_cancel_right hboth

theorem lead_hexadecimal (cs : List Char) (p : Place) : Lead ('0' :: 'x' :: cs) p [] cs := by
  have hrun : run ('0' :: 'x' :: cs) = '0' :: 'x' :: run cs := by
    rw [run_cons (by decide), run_cons (by decide)]
  have hbase : base (run ('0' :: 'x' :: cs)) = .hexadecimal := by
    rw [hrun]
    rfl
  constructor
  · exact nofun
  · rw [hbase]
    rfl
  · rw [hbase]
    rfl
  · rw [Literal.figures, hbase, hrun]
    rfl
  · rfl

/-- A zero in front announces base eight if a digit follows, and else nothing. -/
theorem lead_zero {cs : List Char} (hx : cs.head? ≠ some 'x') (p : Place) :
    Lead ('0' :: cs) p ['0'] cs := by
  have hrun : run ('0' :: cs) = '0' :: run cs := run_cons (by decide) cs
  have hannounced : announcedBase ⟨'0' :: cs, p⟩ =
      (if cs.head?.any Char.isDigit then 8 else 10, ⟨cs, p.after '0'⟩) := by
    cases cs with
    | nil => rfl
    | cons e cs =>
      have he : e ≠ 'x' := fun h => hx (by rw [h]; rfl)
      cases hdigit : e.isDigit <;> simp [announcedBase, hdigit, Cursor.past]
  have hbase : base (run ('0' :: cs)) =
      if cs.head?.any Char.isDigit then .octal else .decimal := by
    rw [hrun]
    cases cs with
    | nil => rfl
    | cons e cs =>
      cases hname : isNameChar e with
      | false =>
        have hdigit : e.isDigit = false := by
          cases hdigit : e.isDigit with
          | false => rfl
          | true => rw [← hname, isNameChar_of_isDigit hdigit]
        rw [run, List.takeWhile_cons_of_neg (by rw [hname]; decide)]
        simp [base, hdigit]
      | true =>
        have he : e ≠ 'x' := fun h => hx (by rw [h]; rfl)
        rw [run_cons hname]
        simp [base, isDigit_iff]
  have hzero : announcement (base (run ('0' :: cs))) = [] := by
    rw [hbase]
    split <;> rfl
  constructor
  · refine List.forall_mem_singleton.mpr ?_
    rw [hbase]
    split <;> decide
  · rw [hannounced, hzero, hbase]
    split <;> rfl
  · rw [hzero]
    rfl
  · rw [Literal.figures, hzero, hrun]
    rfl
  · rfl

/-- Any other digit in front is simply the first one. -/
theorem lead_digit {d : Char} (hd : d.isDigit = true) (hzero : d ≠ '0') (cs : List Char)
    (p : Place) : Lead (d :: cs) p [] (d :: cs) := by
  have hbase : base (run (d :: cs)) = .decimal := by
    rw [run_cons (isNameChar_of_isDigit hd)]
    simp [base, hzero]
  constructor
  · exact nofun
  · rw [hbase]
    simp [announcedBase, hzero, announcement, Base.radix]
  · rw [hbase]
    rfl
  · rw [Literal.figures, hbase]
    rfl
  · rfl

theorem exists_lead {d : Char} {cs : List Char} (hd : d.isDigit = true) (hcs : cs.head? = some d)
    (p : Place) : ∃ zero rest, Lead cs p zero rest := by
  obtain ⟨cs, rfl⟩ := List.head?_eq_some_iff.mp hcs
  by_cases hzero : d = '0'
  · subst hzero
    by_cases hx : cs.head? = some 'x'
    · obtain ⟨cs, rfl⟩ := List.head?_eq_some_iff.mp hx
      exact ⟨[], cs, lead_hexadecimal cs p⟩
    · exact ⟨['0'], cs, lead_zero hx p⟩
  · exact ⟨[], d :: cs, lead_digit hd hzero cs p⟩

theorem number_eq (c : Cursor) :
    number c = match digits (announcedBase c).1 (addWhole (announcedBase c).1) 0
        (announcedBase c).2.rest (announcedBase c).2.place with
      | (.error fault, mid) => (.error fault, mid)
      | (.ok whole, mid) => point (announcedBase c).1 whole mid := rfl

/-- What the characters `cs` at the place `p` are read as: the whole of a well-formed literal, or a
literal with a fault up to the fault. -/
inductive Verdict (cs : List Char) (p : Place) : Result Float → Prop
  | accepted {x : Float} {rest : List Char} (h : WellFormed cs) (hcs : cs = extent cs ++ rest) :
    Verdict cs p (.ok x, ⟨rest, p.afterAll (extent cs)⟩)
  | refused {before rest : List Char} {bad : Char} {cause : Cause}
    (h : Offends cs before bad cause) (hcs : cs = before ++ bad :: rest) :
    Verdict cs p (.error ⟨p.afterAll before, cause⟩, ⟨rest, p.afterAll (before ++ [bad])⟩)

/-- The digits behind the point of a decimal literal. -/
theorem fraction_verdict {cs ds : List Char}
    (hwhole : AllDigits (base (run cs)) (figures (run cs)))
    (hopens : opensFraction (behind cs) = true) (hbase : base (run cs) = .decimal)
    (hds : behind cs = '.' :: ds) (whole : Float) (p : Place) :
    Verdict cs p (fraction whole ⟨ds, p.afterAll (run cs ++ ['.'])⟩) := by
  have hfraction : Literal.fraction cs = run ds := by rw [Literal.fraction, hds, List.tail_cons]
  have hchars : cs = run cs ++ '.' :: ds := by rw [← hds, run_append_behind]
  obtain ⟨hall, ⟨n, m⟩, ha⟩ | ⟨good, bad, more, rest, h, hrest, hall, hbad, herror⟩ :=
    digits_cases .decimal addFraction (whole, 1) ds (p.afterAll (run cs ++ ['.']))
  · have hextent : extent cs = run cs ++ ['.'] ++ run ds := by
      simp [extent, hopens, hfraction]
    have hdigits : digits 10 addFraction (whole, 1) ds (p.afterAll (run cs ++ ['.'])) = _ := ha
    rw [← Place.afterAll_append, ← hextent] at hdigits
    simp only [fraction, hdigits]
    refine .accepted ⟨hwhole, fun _ => ⟨hbase, by rwa [hfraction]⟩⟩ ?_
    rw [hextent, List.append_assoc, run_append_behind, List.append_assoc, List.singleton_append]
    exact hchars
  · have hbefore : run cs ++ '.' :: good = run cs ++ ['.'] ++ good := by simp
    have hdigits : digits 10 addFraction (whole, 1) ds (p.afterAll (run cs ++ ['.'])) = _ := herror
    rw [← Place.afterAll_append, ← Place.afterAll_append, ← List.append_assoc, ← hbefore]
      at hdigits
    simp only [fraction, hdigits]
    refine .refused (.fraction hwhole hopens hbase (hfraction.trans h) hall hbad) ?_
    rw [hrest] at hchars
    rw [hbefore, List.append_assoc, List.append_assoc]
    exact hchars

/-- Behind a whole part that is well formed. -/
theorem point_verdict {cs : List Char} (hwhole : AllDigits (base (run cs)) (figures (run cs)))
    (whole : Float) (p : Place) :
    Verdict cs p (point (base (run cs)).radix whole ⟨behind cs, p.afterAll (run cs)⟩) := by
  rw [point_eq]
  dsimp only
  cases hopens : opensFraction (behind cs) with
  | false =>
    have hextent : extent cs = run cs := by simp [extent, hopens]
    rw [if_neg (by decide), ← hextent]
    refine .accepted ⟨hwhole, fun h => ?_⟩ ?_
    · rw [hopens] at h
      cases h
    · rw [hextent, run_append_behind]
  | true =>
    obtain ⟨ds, hds, -⟩ := opensFraction_cons hopens
    have hpast : Cursor.past ⟨behind cs, p.afterAll (run cs)⟩ ['.'] (behind cs).tail =
        ⟨ds, p.afterAll (run cs ++ ['.'])⟩ := by
      rw [Cursor.past, hds, List.tail_cons, Place.afterAll_append]
    rw [if_pos rfl, hpast]
    by_cases hbase : base (run cs) = .decimal
    · rw [if_pos (by rw [hbase]; rfl)]
      exact fraction_verdict hwhole hopens hbase hds whole p
    · have hradix : (base (run cs)).radix ≠ 10 := by
        cases h : base (run cs) with
        | decimal => exact absurd h hbase
        | octal | hexadecimal => decide
      rw [if_neg hradix]
      refine .refused (.point hwhole hopens hbase) ?_
      rw [← hds, run_append_behind]

/-- A literal that starts with a digit is read if it is well formed, and else up to its first
fault. -/
theorem number_verdict {d : Char} {cs : List Char} (hd : d.isDigit = true)
    (hcs : cs.head? = some d) (p : Place) : Verdict cs p (number ⟨cs, p⟩) := by
  obtain ⟨zero, start, hlead⟩ := exists_lead hd hcs p
  have hchars := hlead.chars
  rw [number_eq, hlead.announced]
  dsimp only
  obtain ⟨hall, whole, hdigits⟩ | ⟨good, bad, more, rest, h, hrest, hall, hbad, herror⟩ :=
    digits_cases (base (run cs)) (addWhole (base (run cs)).radix) 0 start
      (p.afterAll (announcement (base (run cs)) ++ zero))
  · have hwhole : AllDigits (base (run cs)) (figures (run cs)) := by
      rw [hlead.figures]
      exact List.forall_mem_append.mpr ⟨hlead.digits, hall⟩
    rw [hdigits, ← Place.afterAll_append, ← hlead.run_eq, ← hlead.behind]
    exact point_verdict hwhole whole p
  · rw [herror, ← Place.afterAll_append, ← Place.afterAll_append, ← List.append_assoc,
      List.append_assoc (announcement _)]
    have hfigures : figures (run cs) = zero ++ good ++ bad :: more := by
      rw [hlead.figures, h, List.append_assoc]
    refine .refused (.figure hfigures ?_ hbad) ?_
    · exact List.forall_mem_append.mpr ⟨hlead.digits, hall⟩
    · rw [← List.append_assoc, List.append_assoc, ← hrest]
      exact hlead.chars

/-- Where a digit stands, a scan is that of a number. -/
theorem scan_of_digit (file : Option String) {c : Cursor} {d : Char} (hd : d.isDigit = true)
    (hc : (skipTrivia c).rest.head? = some d) :
    scan file c = match number (skipTrivia c) with
      | (.ok x, stop) => (.ok ⟨.number x, (skipTrivia c).position file⟩, stop)
      | (.error fault, stop) =>
        (.error (.found ⟨file, fault.place.line, fault.place.column⟩ fault.cause), stop) := by
  obtain ⟨cs, hcs⟩ := List.head?_eq_some_iff.mp hc
  have hkind : kind (skipTrivia c) = match number (skipTrivia c) with
      | (.ok x, stop) => (.ok (.number x), stop)
      | (.error fault, stop) => (.error fault, stop) := by
    rw [kind]
    split
    · next hnil => cases hnil.symm.trans hcs
    · next e es hrest =>
      obtain rfl : e = d := (List.cons.inj (hrest.symm.trans hcs)).1
      exact if_pos hd
  rw [scan, hkind]
  cases number (skipTrivia c) with
  | mk found stop => cases found <;> rfl

/-- Numbers follow their grammar. Wherever a digit starts a token, the number is read if and only if
the literal there is well formed, and then all of it is read. Otherwise there is a lexical error at
its first fault, and it is read up to there. -/
theorem numbers_follow_their_grammar (file : Option String) {c : Cursor} {d : Char}
    (hd : d.isDigit = true) (hc : (skipTrivia c).rest.head? = some d) :
    let start := skipTrivia c
    ((∃ x stop, number start = (.ok x, stop)) ↔ WellFormed start.rest) ∧
    (∀ x stop, number start = (.ok x, stop) →
      start.rest = extent start.rest ++ stop.rest ∧
      stop = start.past (extent start.rest) stop.rest ∧
      scan file c = (.ok ⟨.number x, start.position file⟩, stop)) ∧
    (∀ fault stop, number start = (.error fault, stop) →
      ∃ before bad, Offends start.rest before bad fault.cause ∧
        start.rest = before ++ bad :: stop.rest ∧
        stop = start.past (before ++ [bad]) stop.rest ∧
        ∃ e, scan file c = (.error e, stop) ∧ e.cause = fault.cause ∧ e.kind = .lexical ∧
          e.position = some ((start.past before (bad :: stop.rest)).position file)) := by
  intro start
  have hscan := scan_of_digit file hd hc
  have hverdict := number_verdict hd hc start.place
  change scan file c = match number start with
    | (.ok x, stop) => (.ok ⟨.number x, start.position file⟩, stop)
    | (.error fault, stop) =>
      (.error (.found ⟨file, fault.place.line, fault.place.column⟩ fault.cause), stop) at hscan
  change Verdict start.rest start.place (number start) at hverdict
  generalize number start = result at hscan hverdict
  cases hverdict with
  | @accepted x rest hwell hrest =>
    refine ⟨⟨fun _ => hwell, fun _ => ⟨x, _, rfl⟩⟩, fun y stop h => ?_, fun fault stop h => ?_⟩
    · cases h
      exact ⟨hrest, rfl, hscan⟩
    · cases h
  | @refused before rest bad cause hoffends hrest =>
    refine ⟨⟨fun h => ?_, fun hwell => absurd hwell hoffends.not_wellFormed⟩,
      fun x stop h => ?_, fun fault stop h => ?_⟩
    · obtain ⟨x, stop, h⟩ := h
      cases h
    · cases h
    · cases h
      exact ⟨before, bad, hoffends, hrest, rfl, _, hscan, rfl, hoffends.kind, rfl⟩

/-- An octal number with a point is refused at the point; behind a hexadecimal one, two points are
left alone. -/
theorem numbers_follow_their_grammar_octal :
    ('0'.isDigit = true ∧ (skipTrivia (.ofSource " 017.5")).rest.head? = some '0' ∧
      (skipTrivia (.ofSource "0xF..2")).rest.head? = some '0') ∧
    (¬ WellFormed "017.5".toList ∧ ∃ before bad e stop,
      Offends "017.5".toList before bad e.cause ∧
      scan none (.ofSource " 017.5") = (.error e, stop) ∧ e.kind = .lexical ∧
      e.position = some ⟨none, 1, 5⟩ ∧ stop.rest = ['5']) ∧
    (WellFormed "0xF..2".toList ∧ ∃ x stop, scan none (.ofSource "0xF..2") =
      (.ok ⟨.number x, ⟨none, 1, 1⟩⟩, stop) ∧ stop.rest = "..2".toList) := by
  have hdigit : '0'.isDigit = true := by decide
  obtain ⟨hoctal, -, hfails⟩ := numbers_follow_their_grammar none hdigit
    (show (skipTrivia (.ofSource " 017.5")).rest.head? = some '0' from rfl)
  obtain ⟨hhex, hreads, -⟩ := numbers_follow_their_grammar none hdigit
    (show (skipTrivia (.ofSource "0xF..2")).rest.head? = some '0' from rfl)
  have hpoint : number (skipTrivia (.ofSource " 017.5")) =
      (.error ⟨⟨1, 5⟩, .fractionBase⟩, ⟨['5'], ⟨1, 6⟩⟩) := rfl
  have hfifteen : number (skipTrivia (.ofSource "0xF..2")) =
      (.ok (addWhole 16 0 15), ⟨"..2".toList, ⟨1, 4⟩⟩) := rfl
  have hwell : WellFormed "0xF..2".toList := hhex.mp ⟨_, _, hfifteen⟩
  have hread : ∃ x stop, scan none (.ofSource "0xF..2") =
      (.ok ⟨.number x, ⟨none, 1, 1⟩⟩, stop) ∧ stop.rest = "..2".toList :=
    ⟨_, _, (hreads _ _ hfifteen).2.2, rfl⟩
  refine ⟨⟨hdigit, rfl, rfl⟩, ⟨fun hwell => ?_, ?_⟩, hwell, hread⟩
  · obtain ⟨x, stop, hnumber⟩ := hoctal.mpr hwell
    cases hpoint.symm.trans hnumber
  · obtain ⟨before, bad, hoffends, -, -, e, hscan, hcause, hkind, -⟩ := hfails _ _ hpoint
    have hfault : Offends "017.5".toList before bad e.cause := by
      rw [hcause]
      exact hoffends
    refine ⟨before, bad, e, _, hfault, hscan, hkind, ?_, rfl⟩
    cases hscan
    rfl

end Scan

end Clausal
