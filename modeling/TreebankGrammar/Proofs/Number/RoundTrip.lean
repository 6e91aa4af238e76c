import TreebankGrammar.Number.Reading
import TreebankGrammar.Number.Writing
import TreebankGrammar.Proofs.Number.Nearest
import TreebankGrammar.Proofs.Text.Words

/-!
# Numbers as text

The text of a number is read back as this number, whatever number it is.  A text with digits has
one of five layouts, all of which denote the same decimal up to zeros at the end of the
coefficient, and the nearest number of this decimal is the written one.

Main results:

- Theorem `Number.readDecimal?_layout`: the decimal that a layout of digits denotes.
- Theorem `Binary64.read?_text`: the text of a number is read back as this number.
- Theorem `Binary64.isWord_text`: the text of a number is a word.
-/

namespace TreebankGrammar
namespace Number

/-! ## Digits -/

/-- Every character is one of the ten digits that numbers are written with. -/
def AllDigits (ds : List Char) : Prop :=
  ∀ c ∈ ds, c.isDigit = true

theorem allDigits_append {ds es : List Char} :
    AllDigits (ds ++ es) ↔ AllDigits ds ∧ AllDigits es := by
  simp only [AllDigits, List.mem_append, or_imp, forall_and]

theorem allDigits_replicate (n : Nat) : AllDigits (List.replicate n '0') := by
  intro c hc
  rw [List.eq_of_mem_replicate hc]
  rfl

theorem allDigits_toDigits (n : Nat) : AllDigits (Nat.toDigits 10 n) :=
  fun _ hc => Nat.isDigit_of_mem_toDigits (b := 10) (by decide) (by decide) hc

theorem digitValue?_of_isDigit {c : Char} (h : c.isDigit = true) :
    digitValue? c = some (c.toNat - 48) := by
  rw [Char.isDigit_iff_toNat] at h
  have hrange : (48 ≤ c.toNat && c.toNat < 48 + 10) = true := by
    rw [Bool.and_eq_true, decide_eq_true_eq, decide_eq_true_eq]
    exact ⟨h.1, Nat.lt_succ_of_le h.2⟩
  rw [digitValue?, decimalZeros, List.findSome?_cons, hrange]
  rfl

theorem isDecimalDigit_of_isDigit {c : Char} (h : c.isDigit = true) : isDecimalDigit c = true := by
  rw [isDecimalDigit, digitValue?_of_isDigit h]
  rfl

/-- The number that digits write. -/
def digitsValue (ds : List Char) : Nat :=
  Nat.ofDigitChars 10 ds 0

@[simp]
theorem digitsValue_toDigits (n : Nat) : digitsValue (Nat.toDigits 10 n) = n :=
  Nat.ofDigitChars_ten_toDigits

/-- Zeros in front do not count. -/
theorem digitsValue_replicate_append (n : Nat) (ds : List Char) :
    digitsValue (List.replicate n '0' ++ ds) = digitsValue ds := by
  rw [digitsValue, Nat.ofDigitChars_append, Nat.ofDigitChars_replicate_zero, Nat.mul_zero, digitsValue]

theorem digitsValue_cons_zero (ds : List Char) : digitsValue ('0' :: ds) = digitsValue ds :=
  digitsValue_replicate_append 1 ds

/-- Each zero at the end is a factor of ten. -/
theorem digitsValue_append_replicate (ds : List Char) (n : Nat) :
    digitsValue (ds ++ List.replicate n '0') = digitsValue ds * 10 ^ n := by
  rw [digitsValue, Nat.ofDigitChars_append, Nat.ofDigitChars_replicate_zero, Nat.mul_comm, digitsValue]

theorem mapM_digitValue? {ds : List Char} (h : AllDigits ds) :
    ds.mapM digitValue? = some (ds.map fun c => c.toNat - 48) := by
  induction ds with
  | nil => rfl
  | cons c ds ih =>
    rw [List.mapM_cons, digitValue?_of_isDigit (h c (by simp)), ih fun c hc => h c (by simp [hc])]
    rfl

theorem readNat?_of_allDigits {ds : List Char} (h : AllDigits ds) (hne : ds ≠ []) :
    readNat? ds = some (digitsValue ds) := by
  rw [readNat?, if_neg (by simpa using hne), mapM_digitValue? h, Option.map_some, ofDigitValues,
    List.foldl_map]
  rfl

/-- Digits end where a character stands that is not a digit. -/
theorem span_isDecimalDigit {ds tail : List Char} (h : AllDigits ds)
    (htail : ∀ c ∈ tail.head?, isDecimalDigit c = false) :
    (ds ++ tail).span isDecimalDigit = (ds, tail) := by
  have hall : ∀ c ∈ ds, isDecimalDigit c = true := fun c hc => isDecimalDigit_of_isDigit (h c hc)
  rw [List.span_eq_takeWhile_dropWhile, List.takeWhile_append_of_pos hall,
    List.dropWhile_append_of_pos hall]
  cases tail with
  | nil => simp
  | cons c tail => simp [htail c rfl]

/-! ## Decimals -/

/-- The digits of an exponent, at least two. -/
def exponentDigits (n : Nat) : List Char :=
  if (Nat.toDigits 10 n).length < 2 then '0' :: Nat.toDigits 10 n else Nat.toDigits 10 n

theorem allDigits_exponentDigits (n : Nat) : AllDigits (exponentDigits n) := by
  unfold exponentDigits
  split
  · exact allDigits_append.2 ⟨allDigits_replicate 1, allDigits_toDigits n⟩
  · exact allDigits_toDigits n

theorem readNat?_exponentDigits (n : Nat) : readNat? (exponentDigits n) = some n := by
  have hvalue : digitsValue (exponentDigits n) = n ∧ exponentDigits n ≠ [] := by
    unfold exponentDigits
    split
    · exact ⟨by rw [digitsValue_cons_zero, digitsValue_toDigits], List.cons_ne_nil _ _⟩
    · exact ⟨digitsValue_toDigits n, List.ne_nil_of_length_pos Nat.length_toDigits_pos⟩
  rw [readNat?_of_allDigits (allDigits_exponentDigits n) hvalue.2, hvalue.1]

theorem exponentText_eq (e : Int) :
    exponentText e = (if e < 0 then '-' else '+') :: exponentDigits e.natAbs :=
  rfl

/-- The text of an exponent is read back as this exponent. -/
theorem readExponent?_exponentText (e : Int) : readExponent? ('e' :: exponentText e) = some e := by
  rw [readExponent?, if_pos (Or.inl rfl), exponentText_eq]
  by_cases hneg : e < 0
  · have habs : -(e.natAbs : Int) = e := by omega
    simp only [hneg, splitSign, readNat?_exponentDigits, if_true]
    exact congrArg some habs
  · have habs : (e.natAbs : Int) = e := by omega
    simp [hneg, splitSign, readNat?_exponentDigits, habs]

/-- The decimal of digits on both sides of a point and an exponent. -/
theorem readDecimal?_point {whole fraction : List Char} {e : Int} (hwhole : AllDigits whole)
    (hne : whole ≠ []) (hfraction : AllDigits fraction) (tail : List Char)
    (htail : ∀ c ∈ tail.head?, isDecimalDigit c = false) (he : readExponent? tail = some e) :
    readDecimal? (whole ++ '.' :: (fraction ++ tail)) =
      some ⟨digitsValue (whole ++ fraction), e - fraction.length⟩ := by
  have hpoint : ∀ c ∈ ('.' :: (fraction ++ tail)).head?, isDecimalDigit c = false := by
    simp only [List.head?_cons, Option.mem_some_iff, forall_eq']
    decide
  rw [readDecimal?, span_isDecimalDigit hwhole hpoint]
  simp only [splitFraction, span_isDecimalDigit hfraction htail,
    readNat?_of_allDigits (allDigits_append.2 ⟨hwhole, hfraction⟩) (by simp [hne]), he]
  rfl

/-- The decimal of digits and an exponent. -/
theorem readDecimal?_exponent {whole : List Char} (hwhole : AllDigits whole) (hne : whole ≠ [])
    (e : Int) :
    readDecimal? (whole ++ 'e' :: exponentText e) = some ⟨digitsValue whole, e⟩ := by
  have hmark : ∀ c ∈ ('e' :: exponentText e).head?, isDecimalDigit c = false := by
    simp only [List.head?_cons, Option.mem_some_iff, forall_eq']
    decide
  rw [readDecimal?, span_isDecimalDigit hwhole hmark]
  simp [splitFraction, readNat?_of_allDigits hwhole hne, readExponent?_exponentText]

/-! ## Layouts -/

/-- The decimal of digits on both sides of a point. -/
theorem readDecimal?_positional {whole fraction : List Char} (hwhole : AllDigits whole)
    (hne : whole ≠ []) (hfraction : AllDigits fraction) :
    readDecimal? (whole ++ '.' :: fraction) =
      some ⟨digitsValue (whole ++ fraction), -fraction.length⟩ := by
  have hread := readDecimal?_point hwhole hne hfraction [] (by simp) rfl
  rwa [List.append_nil, Int.zero_sub] at hread

section

variable {ds : List Char}

/-- All digits stand after the point, behind zeros. -/
theorem readDecimal?_before (h : AllDigits ds) (z : Nat) :
    readDecimal? ('0' :: '.' :: (List.replicate z '0' ++ ds)) =
      some ⟨digitsValue ds, -(z + ds.length : Nat)⟩ := by
  have hfraction := allDigits_append.2 ⟨allDigits_replicate z, h⟩
  have hread := readDecimal?_positional (allDigits_replicate 1) (by simp) hfraction
  rwa [digitsValue_replicate_append, digitsValue_replicate_append, List.length_append,
    List.length_replicate] at hread

/-- The point stands between two digits. -/
theorem readDecimal?_inside (h : AllDigits ds) {i : Nat} (hpos : 0 < i) (hlt : i < ds.length) :
    readDecimal? (ds.take i ++ '.' :: ds.drop i) =
      some ⟨digitsValue ds, -(ds.length - i : Nat)⟩ := by
  have hparts : AllDigits (ds.take i) ∧ AllDigits (ds.drop i) :=
    allDigits_append.1 (by rwa [List.take_append_drop])
  have htake : ds.take i ≠ [] := List.ne_nil_of_length_pos (by rw [List.length_take]; omega)
  rw [readDecimal?_positional hparts.1 htake hparts.2, List.take_append_drop, List.length_drop]

/-- The point stands behind all digits and some zeros. -/
theorem readDecimal?_after (h : AllDigits ds) (hne : ds ≠ []) (z : Nat) :
    readDecimal? (ds ++ List.replicate z '0' ++ ['.', '0']) =
      some ⟨digitsValue ds * 10 ^ (z + 1), -1⟩ := by
  have hwhole := allDigits_append.2 ⟨h, allDigits_replicate z⟩
  have hread := readDecimal?_positional hwhole (by simp [hne]) (allDigits_replicate 1)
  rwa [digitsValue_append_replicate, digitsValue_append_replicate, Nat.mul_assoc, ← Nat.pow_add,
    List.length_replicate] at hread

/-- One digit stands before the point, the others after it, and an exponent follows; without other
digits there is no point. -/
theorem readDecimal?_scientific (h : AllDigits ds) (hne : ds ≠ []) (e : Int) :
    readDecimal? (ds.take 1 ++ (if (ds.drop 1).isEmpty then [] else '.' :: ds.drop 1) ++
      'e' :: exponentText e) = some ⟨digitsValue ds, e - (ds.length - 1 : Nat)⟩ := by
  have hparts : AllDigits (ds.take 1) ∧ AllDigits (ds.drop 1) :=
    allDigits_append.1 (by rwa [List.take_append_drop])
  split
  · rename_i hdrop
    rw [List.isEmpty_iff, List.drop_eq_nil_iff] at hdrop
    have hzero : e - (ds.length - 1 : Nat) = e := by omega
    rw [List.take_of_length_le hdrop, List.append_nil, readDecimal?_exponent h hne, hzero]
  · have hread := readDecimal?_point hparts.1 (by simp [hne]) hparts.2 ('e' :: exponentText e)
      (by simp; decide) (readExponent?_exponentText e)
    rw [List.append_assoc, List.cons_append, hread, List.take_append_drop, List.length_drop]

/-- Every layout of digits denotes the same decimal, up to zeros at the end of the coefficient. -/
theorem readDecimal?_layout (h : AllDigits ds) (hne : ds ≠ []) (point : Int) :
    ∃ j : Nat, readDecimal? (layout ds point) =
      some ⟨digitsValue ds * 10 ^ j, point - ds.length - j⟩ := by
  have hlength := List.length_pos_iff.2 hne
  rw [layout]
  split
  · split
    · refine ⟨0, ?_⟩
      rw [readDecimal?_before h]
      simp only [Option.some.injEq, Decimal.mk.injEq]
      omega
    · split
      · refine ⟨0, ?_⟩
        rw [readDecimal?_inside h (by omega) (by omega)]
        simp only [Option.some.injEq, Decimal.mk.injEq]
        omega
      · refine ⟨point.toNat - ds.length + 1, ?_⟩
        rw [readDecimal?_after h hne]
        simp only [Option.some.injEq, Decimal.mk.injEq, true_and]
        omega
  · refine ⟨0, ?_⟩
    dsimp only
    rw [readDecimal?_scientific h hne]
    simp only [Option.some.injEq, Decimal.mk.injEq]
    omega

end

/-! ## The text of a magnitude -/

/-- Digits are those that remain without the zeros at the end, and zeros. -/
theorem exists_replicate_dropTrailingZeros (ds : List Char) :
    ∃ n, ds = dropTrailingZeros ds ++ List.replicate n '0' := by
  refine ⟨(ds.reverse.takeWhile (· == '0')).length, ?_⟩
  have hzeros : ds.reverse.takeWhile (· == '0') =
      List.replicate (ds.reverse.takeWhile (· == '0')).length '0' :=
    by
    refine List.eq_replicate_iff.2 ⟨rfl, fun c hc => ?_⟩
    exact eq_of_beq (List.all_eq_true.1 List.all_takeWhile c hc)
  have hparts := congrArg List.reverse
    (List.takeWhile_append_dropWhile (p := (· == '0')) (l := ds.reverse))
  rw [List.reverse_append, List.reverse_reverse, hzeros, List.reverse_replicate] at hparts
  rw [dropTrailingZeros, hparts]

/-- The digits of a coefficient that is not zero, without the zeros at its end. -/
theorem dropTrailingZeros_toDigits {c : Nat} (hc : c ≠ 0) :
    ∃ ds z, dropTrailingZeros (Nat.toDigits 10 c) = ds ∧ AllDigits ds ∧ digitsValue ds ≠ 0 ∧
      digitsValue ds * 10 ^ z = c ∧ (Nat.toDigits 10 c).length = ds.length + z := by
  obtain ⟨z, hz⟩ := exists_replicate_dropTrailingZeros (Nat.toDigits 10 c)
  generalize dropTrailingZeros (Nat.toDigits 10 c) = ds at hz
  have hvalue : digitsValue ds * 10 ^ z = c := by
    rw [← digitsValue_append_replicate, ← hz, digitsValue_toDigits]
  refine ⟨ds, z, rfl, (allDigits_append.1 (hz ▸ allDigits_toDigits c)).1, ?_, hvalue, ?_⟩
  · intro hzero
    rw [hzero, Nat.zero_mul] at hvalue
    exact hc hvalue.symm
  · rw [hz, List.length_append, List.length_replicate]

theorem ne_nil_of_digitsValue_ne_zero {ds : List Char} (h : digitsValue ds ≠ 0) : ds ≠ [] := by
  rintro rfl
  exact h rfl

/-- The text of a decimal denotes a decimal with the same nearest number. -/
theorem readDecimal?_decimalText (d : Decimal) (hd : d.coefficient ≠ 0) :
    ∃ d', readDecimal? (decimalText d) = some d' ∧
      ∀ negative, d'.nearest negative = d.nearest negative := by
  rcases d with ⟨c, e⟩
  obtain ⟨ds, z, hds, hdigits, hne, hvalue, hlength⟩ := dropTrailingZeros_toDigits hd
  obtain ⟨j, hj⟩ := readDecimal?_layout hdigits (ne_nil_of_digitsValue_ne_zero hne)
    ((Nat.toDigits 10 c).length + e)
  refine ⟨_, by rw [decimalText, hds]; exact hj, fun negative => ?_⟩
  -- Both decimals are the digits without zeros, up to zeros at the end.
  have hexponent : (j : Int) + (((Nat.toDigits 10 c).length : Int) + e - ds.length - j) = z + e := by
    rw [hlength]
    push_cast
    ring
  simp only at hvalue
  rw [Decimal.nearest_mul_pow negative hne, hexponent, ← hvalue,
    Decimal.nearest_mul_pow negative hne]

/-! ## Characters -/

/-- The characters of which the texts of numbers consist. -/
def IsTextChar (c : Char) : Prop :=
  c.isDigit = true ∨ c ∈ ['+', '-', '.', 'e', 'i', 'n', 'f', 'a']

/-- No character of a number's text is blank, an underscore or a number sign. -/
theorem IsTextChar.not_special {c : Char} (h : IsTextChar c) :
    Text.isBlank c = false ∧ c ≠ '_' ∧ c ≠ '#' := by
  rcases h with h | h
  · rw [Char.isDigit_iff_toNat] at h
    obtain ⟨hlow, hhigh⟩ : 48 ≤ c.toNat ∧ c.toNat ≤ 57 := h
    refine ⟨?_, ?_, ?_⟩
    · simp [Text.isBlank, Text.blankRanges]
      omega
    · rintro rfl
      exact absurd hhigh (by decide)
    · rintro rfl
      exact absurd hlow (by decide)
  · have hletters : ∀ c ∈ ['+', '-', '.', 'e', 'i', 'n', 'f', 'a'],
        Text.isBlank c = false ∧ c ≠ '_' ∧ c ≠ '#' := by
      simp [Text.isBlank, Text.blankRanges]
    exact hletters c h

theorem isTextChar_layout {ds : List Char} (h : AllDigits ds) (point : Int) :
    ∀ c ∈ layout ds point, IsTextChar c := by
  have hall : ∀ {es : List Char}, AllDigits es → ∀ c ∈ es, IsTextChar c := fun h c hc => .inl (h c hc)
  have hparts : ∀ i, AllDigits (ds.take i) ∧ AllDigits (ds.drop i) := fun i =>
    allDigits_append.1 (by rwa [List.take_append_drop])
  rw [layout]
  split
  · split
    · simp only [List.forall_mem_cons, List.forall_mem_append]
      exact ⟨.inl rfl, .inr (by decide), hall (allDigits_replicate _), hall h⟩
    · split
      · simp only [List.forall_mem_cons, List.forall_mem_append]
        exact ⟨hall (hparts _).1, .inr (by decide), hall (hparts _).2⟩
      · simp only [List.forall_mem_append]
        exact ⟨⟨hall h, hall (allDigits_replicate _)⟩, by simp [IsTextChar]⟩
  · simp only [List.forall_mem_cons, List.forall_mem_append]
    refine ⟨⟨hall (hparts 1).1, ?_⟩, .inr (by decide), ?_⟩
    · split
      · simp
      · simp only [List.forall_mem_cons]
        exact ⟨.inr (by decide), hall (hparts 1).2⟩
    · rw [exponentText_eq]
      simp only [List.forall_mem_cons]
      refine ⟨?_, hall (allDigits_exponentDigits _)⟩
      split
      · exact .inr (by decide)
      · exact .inr (by decide)

/-- A layout begins with a digit. -/
theorem exists_layout_eq_cons {ds : List Char} (h : AllDigits ds) (hne : ds ≠ []) (point : Int) :
    ∃ c cs, layout ds point = c :: cs ∧ c.isDigit = true := by
  obtain ⟨d, ds, rfl⟩ := List.exists_cons_of_ne_nil hne
  have hd : d.isDigit = true := h d (by simp)
  rw [layout]
  split
  · split
    · exact ⟨_, _, rfl, rfl⟩
    · rename_i hpoint
      obtain ⟨i, hi⟩ : ∃ i, point.toNat = i + 1 := ⟨point.toNat - 1, by omega⟩
      split
      · exact ⟨d, _, by rw [hi]; rfl, hd⟩
      · exact ⟨d, _, rfl, hd⟩
  · exact ⟨d, _, rfl, hd⟩

/-- The text of a decimal begins with a digit and has no other characters than digits, a point and
an exponent. -/
theorem decimalText_spec (d : Decimal) (hd : d.coefficient ≠ 0) :
    (∀ c ∈ decimalText d, IsTextChar c) ∧ ∃ c cs, decimalText d = c :: cs ∧ c.isDigit = true := by
  obtain ⟨ds, z, hds, hdigits, hne, -⟩ := dropTrailingZeros_toDigits hd
  rw [decimalText, hds]
  exact ⟨isTextChar_layout hdigits _,
    exists_layout_eq_cons hdigits (ne_nil_of_digitsValue_ne_zero hne) _⟩

/-! ## Cleaning -/

/-- A text without underscores has no digit groups. -/
theorem joinDigitGroups_of_not_mem {cs : List Char} (h : '_' ∉ cs) (afterDigit : Bool) :
    joinDigitGroups afterDigit cs = some cs := by
  induction cs generalizing afterDigit with
  | nil => rfl
  | cons c cs ih =>
    rw [List.mem_cons, not_or] at h
    rw [joinDigitGroups, if_neg (Ne.symm h.1), ih h.2]
    rfl

/-- A text without blanks has none at its ends. -/
theorem trimNumber_of_blankFree {cs : List Char} (h : Text.BlankFree cs) : trimNumber cs = cs := by
  have hblank : ∀ c ∈ cs, isNumberBlank c = false := fun c hc => by rw [isNumberBlank, h c hc]; rfl
  have hdrop : ∀ {es : List Char}, (∀ c ∈ es, isNumberBlank c = false) →
      es.dropWhile isNumberBlank = es := by
    intro es hes
    cases es with
    | nil => rfl
    | cons e es => rw [List.dropWhile_cons_of_neg (by simp [hes e (by simp)])]
  rw [trimNumber, hdrop hblank, hdrop (fun c hc => hblank c (List.mem_reverse.1 hc)),
    List.reverse_reverse]

end Number

namespace Binary64

/-! ## Reading back -/

/-- A text that begins with a digit has no sign. -/
theorem splitSign_of_isDigit {c : Char} (h : c.isDigit = true) (cs : List Char) :
    Number.splitSign (c :: cs) = (false, c :: cs) := by
  unfold Number.splitSign
  split
  · rename_i heq
    rw [List.cons.injEq] at heq
    rw [heq.1] at h
    exact absurd h (by decide)
  · rename_i heq
    rw [List.cons.injEq] at heq
    rw [heq.1] at h
    exact absurd h (by decide)
  · rfl

/-- The name of a number that is not finite begins with a letter. -/
theorem head?_of_mem_names {cs : List Char} (h : cs ∈ infinityNames ∨ cs = nanName) :
    cs.head? = some 'i' ∨ cs.head? = some 'n' := by
  have hnames : ∀ es ∈ nanName :: infinityNames, es.head? = some 'i' ∨ es.head? = some 'n' := by
    decide +kernel
  refine hnames cs ?_
  rcases h with h | rfl
  · exact List.mem_cons_of_mem _ h
  · exact List.mem_cons_self

/-- A text that begins with a digit is not the name of a number. -/
theorem not_name_of_isDigit {c : Char} (hc : c.isDigit = true) (cs : List Char) :
    (c :: cs).map Char.toLower ∉ infinityNames ∧ (c :: cs).map Char.toLower ≠ nanName := by
  rw [← not_or]
  intro h
  have hlower : c.toLower = c := by
    refine dif_neg ?_
    rintro ⟨hletter, -⟩
    exact absurd (Nat.le_trans hletter (Char.isDigit_iff_toNat.1 hc).2) (by decide)
  have hhead : c = 'i' ∨ c = 'n' := by
    simpa [hlower] using head?_of_mem_names h
  rcases hhead with rfl | rfl
  · exact absurd hc (by decide)
  · exact absurd hc (by decide)

/-- A magnitude that begins with a digit is read as a decimal, with or without a minus. -/
theorem readChars?_signed {cs : List Char} (hchars : ∀ c ∈ cs, Number.IsTextChar c)
    (hhead : ∃ c es, cs = c :: es ∧ c.isDigit = true) (negative : Bool) :
    readChars? (if negative then '-' :: cs else cs) =
      (Number.readDecimal? cs).map (Decimal.nearest negative) := by
  generalize htext : (if negative then '-' :: cs else cs) = text
  have hall : ∀ c ∈ text, Number.IsTextChar c := by
    subst htext
    split
    · exact List.forall_mem_cons.2 ⟨.inr (by decide), hchars⟩
    · exact hchars
  obtain ⟨c, es, rfl, hc⟩ := hhead
  have hsign : Number.splitSign text = (negative, c :: es) := by
    subst htext
    split
    · rename_i hneg
      rw [hneg]
      rfl
    · rename_i hneg
      rw [splitSign_of_isDigit hc, Bool.eq_false_iff.2 hneg]
  obtain ⟨hinfinity, hnan⟩ := not_name_of_isDigit hc es
  have hjoin := Number.joinDigitGroups_of_not_mem (fun h => (hall _ h).not_special.2.1 rfl) false
  have htrim := Number.trimNumber_of_blankFree fun c h => (hall c h).not_special.1
  rw [readChars?, htrim, hjoin]
  simp only [Option.bind_eq_bind, Option.bind_some, hsign, hinfinity, hnan, if_false]

/-- The text of a finite number is read back as this number. -/
theorem readChars?_finite {negative : Bool} {m k : Nat} (h : Canonical m k) :
    readChars? (textChars (.finite negative m k h)) = some (.finite negative m k h) := by
  by_cases hm : m = 0
  · subst hm
    obtain rfl : k = 0 := h.2.2.resolve_right (by decide)
    cases negative with
    | false =>
      show readChars? (textChars (.finite false 0 0 (by decide))) = some (.finite false 0 0 (by decide))
      decide +kernel
    | true =>
      show readChars? (textChars (.finite true 0 0 (by decide))) = some (.finite true 0 0 (by decide))
      decide +kernel
  · have hne := Decimal.coefficient_shortest_ne_zero h hm
    obtain ⟨d, hread, hnearest⟩ := Number.readDecimal?_decimalText (Decimal.shortest m k) hne
    obtain ⟨hchars, hhead⟩ := Number.decimalText_spec (Decimal.shortest m k) hne
    rw [textChars]
    simp only [hm, if_false]
    rw [readChars?_signed hchars hhead, hread, Option.map_some, hnearest]
    cases negative with
    | false => rw [Decimal.nearest_shortest h hm]
    | true =>
      rw [Decimal.nearest_true, Decimal.nearest_shortest h hm]
      rfl

/-- The text of a number is read back as this number. -/
theorem read?_text (x : Binary64) : read? x.text = some x := by
  rw [read?, text, String.toList_ofList]
  match x with
  | .finite negative m k h => exact readChars?_finite h
  | .infinite true => decide +kernel
  | .infinite false => decide +kernel
  | .nan => decide +kernel

/-- The text of a number consists of digits and a few other characters, at least one. -/
theorem isTextChar_textChars (x : Binary64) :
    x.textChars ≠ [] ∧ ∀ c ∈ x.textChars, Number.IsTextChar c := by
  have hnames : ∀ cs ∈ [['-', 'i', 'n', 'f'], ['i', 'n', 'f'], ['n', 'a', 'n'], ['0', '.', '0']],
      cs ≠ [] ∧ ∀ c ∈ cs, Number.IsTextChar c := by
    simp [Number.IsTextChar]
  match x with
  | .finite negative m k h =>
    have hmagnitude : ∀ cs : List Char, (cs ≠ [] ∧ ∀ c ∈ cs, Number.IsTextChar c) →
        (if negative then '-' :: cs else cs) ≠ [] ∧
          ∀ c ∈ (if negative then '-' :: cs else cs), Number.IsTextChar c := by
      intro cs hcs
      cases negative with
      | false => exact hcs
      | true => exact ⟨List.cons_ne_nil _ _, List.forall_mem_cons.2 ⟨.inr (by decide), hcs.2⟩⟩
    refine hmagnitude _ ?_
    split
    · exact hnames _ (by decide)
    · rename_i hm
      obtain ⟨hchars, c, cs, heq, -⟩ :=
        Number.decimalText_spec _ (Decimal.coefficient_shortest_ne_zero h hm)
      exact ⟨by rw [heq]; exact List.cons_ne_nil c cs, hchars⟩
  | .infinite true => exact hnames _ (by decide)
  | .infinite false => exact hnames _ (by decide)
  | .nan => exact hnames _ (by decide)

/-- The text of a number is a word. -/
theorem isWord_text (x : Binary64) : Text.IsWord x.text :=
  Text.isWord_ofList (isTextChar_textChars x).1
    fun c hc => ((isTextChar_textChars x).2 c hc).not_special.1

/-- The text of a number does not begin with a number sign. -/
theorem head?_text_ne (x : Binary64) : x.text.toList.head? ≠ some '#' := by
  rw [text, String.toList_ofList]
  intro h
  exact ((isTextChar_textChars x).2 '#' (List.mem_of_mem_head? h)).not_special.2.2 rfl

end Binary64
end TreebankGrammar
