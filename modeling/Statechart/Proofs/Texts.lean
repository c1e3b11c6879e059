import Mathlib.Algebra.Group.Nat.Defs
import Statechart.Instant.Reader
import Statechart.Uuid

/-!
# Texts that are read back

The text of an instant is read as that instant, and the text of an identifier as that identifier, whatever they are.
-/

namespace Statechart

/-! ## Digits -/

namespace Instant

theorem isDigit_of_mem_padded {width n : Nat} {c : Char} (hc : c ∈ padded width n) : c.isDigit = true := by
  rcases List.mem_append.mp hc with hc | hc
  · obtain rfl := List.eq_of_mem_replicate hc
    rfl
  · exact Nat.isDigit_of_mem_toDigits (by decide) (by decide) hc

theorem length_padded {width n : Nat} (hw : 0 < width) (hn : n < 10 ^ width) : (padded width n).length = width := by
  rw [padded, List.length_leftpad]
  exact Nat.max_eq_left ((Nat.length_toDigits_le_iff (by decide) hw).mpr hn)

theorem padded_ne_nil (width n : Nat) : padded width n ≠ [] :=
  List.append_ne_nil_of_right_ne_nil _ Nat.toDigits_ne_nil

theorem ofDigitChars_padded (width n : Nat) : Nat.ofDigitChars 10 (padded width n) 0 = n := by
  rw [padded, List.leftpad, Nat.ofDigitChars_append, Nat.ofDigitChars_replicate_zero, Nat.mul_zero,
    Nat.ofDigitChars_ten_toDigits]

def EndsDigits (rest : List Char) : Prop := ∀ c ∈ rest.head?, c.isDigit = false

theorem endsDigits_cons {c : Char} (rest : List Char) (hc : c.isDigit = false) : EndsDigits (c :: rest) := by
  rintro _ ⟨⟩; exact hc

theorem isBlank_eq_false_of_isDigit {c : Char} (hc : c.isDigit = true) : isBlank c = false := by
  simp only [Char.isDigit, Bool.and_eq_true, decide_eq_true_eq, UInt32.le_iff_toNat_le] at hc
  have h₁ : 48 ≤ c.toNat := hc.1
  have h₂ : c.toNat ≤ 57 := hc.2
  simp only [isBlank, Bool.or_eq_false_iff, Bool.and_eq_false_iff, decide_eq_false_iff_not, beq_eq_false_iff_ne]
  omega

section
variable {digits rest : List Char} (hd : ∀ c ∈ digits, c.isDigit = true) (hne : digits ≠ [])
include hd hne

theorem skipBlanks_digits : skipBlanks (digits ++ rest) = digits ++ rest := by
  obtain ⟨c, digits, rfl⟩ := List.exists_cons_of_ne_nil hne
  rw [skipBlanks, List.cons_append, List.dropWhile_cons_of_neg]
  simp [isBlank_eq_false_of_isDigit (hd c (by simp))]

theorem readDigits_append {limit : Option Nat} (hl : limit = some digits.length ∨ limit = none ∧ EndsDigits rest) :
    readDigits limit (digits ++ rest) = some (digits, rest) := by
  have hall : (digits ++ rest).takeWhile Char.isDigit = digits ++ rest.takeWhile Char.isDigit :=
    List.takeWhile_append_of_pos hd
  have htaken : (limit.map ((digits ++ rest).takeWhile Char.isDigit).take).getD
      ((digits ++ rest).takeWhile Char.isDigit) = digits := by
    rw [hall]
    rcases hl with rfl | ⟨rfl, hrest⟩
    · simp
    · cases rest with
      | nil => simp
      | cons c rest => simp [hrest c rfl]
  simp only [readDigits, htaken, List.isEmpty_iff, hne, if_false, List.drop_left]

end

theorem readField_padded {n : Nat} (hn : n < 100) (rest : List Char) :
    readField (padded 2 n ++ rest) = some (n, rest) := by
  have hd : ∀ c ∈ padded 2 n, c.isDigit = true := fun c => isDigit_of_mem_padded
  have hlength : (padded 2 n).length = 2 := length_padded (by decide) hn
  rw [readField, skipBlanks_digits hd (padded_ne_nil 2 n),
    readDigits_append hd (padded_ne_nil 2 n) (Or.inl (by rw [hlength]))]
  simp [ofDigitChars_padded]

theorem readYear_yearChars (year : Int) {rest : List Char} (hrest : EndsDigits rest) :
    readYear (yearChars year ++ rest) = some (year, rest) := by
  have hd : ∀ n, ∀ c ∈ padded 4 n, c.isDigit = true := fun _ c => isDigit_of_mem_padded
  have hsigned : ∀ n, readDigits none (padded 4 n ++ rest) = some (padded 4 n, rest) := fun n =>
    readDigits_append (hd n) (padded_ne_nil 4 n) (Or.inr ⟨rfl, hrest⟩)
  unfold yearChars
  -- Four digits where the year has no more than that, and otherwise any number of them after a sign.
  split
  · rename_i hy
    have hlength : (padded 4 year.toNat).length = 4 := length_padded (by decide) (by omega)
    have hread : readDigits (some 4) (padded 4 year.toNat ++ rest) = some (padded 4 year.toNat, rest) :=
      readDigits_append (hd _) (padded_ne_nil 4 _) (Or.inl (by rw [hlength]))
    unfold readYear
    rw [skipBlanks_digits (hd _) (padded_ne_nil 4 _)]
    obtain ⟨c, l, hcl⟩ := List.exists_cons_of_ne_nil (padded_ne_nil 4 year.toNat)
    have hc : c.isDigit = true := hd _ c (by rw [hcl]; simp)
    split
    · rename_i heq
      rw [hcl, List.cons_append, List.cons.injEq] at heq
      obtain ⟨rfl, _⟩ := heq
      cases hc
    · rename_i heq
      rw [hcl, List.cons_append, List.cons.injEq] at heq
      obtain ⟨rfl, _⟩ := heq
      cases hc
    · rw [hread]
      simp only [Option.map_some, ofDigitChars_padded, Int.toNat_of_nonneg hy.1]
  · rename_i hy
    split
    · have hskip : skipBlanks ('-' :: padded 4 year.natAbs ++ rest) = '-' :: (padded 4 year.natAbs ++ rest) := rfl
      simp only [readYear, hskip, hsigned, Option.map_some, ofDigitChars_padded]
      simp only [Option.some.injEq, Prod.mk.injEq, and_true]
      omega
    · have hskip : skipBlanks ('+' :: padded 4 year.natAbs ++ rest) = '+' :: (padded 4 year.natAbs ++ rest) := rfl
      simp only [readYear, hskip, hsigned, Option.map_some, ofDigitChars_padded]
      simp only [Option.some.injEq, Prod.mk.injEq, and_true]
      omega

/-! ## Instants -/

theorem expect_cons {mark : Char} (hmark : isBlank mark = false) (rest : List Char) :
    expect mark (mark :: rest) = some rest := by
  simp [expect, skipBlanks, hmark]

theorem readFraction_fractionChars {nano : Nat} (hn : nano < 1000000000) {rest : List Char} (hrest : EndsDigits rest)
    (hpoint : rest.head? ≠ some '.') : readFraction (fractionChars nano ++ rest) = some (nano, rest) := by
  -- As many digits are written as it takes, and the zeros that are left out are supplied again.
  have hdigits : ∀ width n, 0 < width → width ≤ 9 → n < 10 ^ width →
      readFraction ('.' :: padded width n ++ rest) = some (n * 10 ^ (9 - width), rest) := by
    intro width n hw hw9 hn
    have hlength := length_padded hw hn
    have hread : readDigits none (padded width n ++ rest) = some (padded width n, rest) :=
      readDigits_append (fun c => isDigit_of_mem_padded) (padded_ne_nil width n) (Or.inr ⟨rfl, hrest⟩)
    have htake : (padded width n).take 9 = padded width n := List.take_of_length_le (by omega)
    simp only [readFraction, List.cons_append, hread, Option.bind_eq_bind, Option.bind_some, htake, List.rightpad,
      hlength, Nat.ofDigitChars_append, ofDigitChars_padded, Nat.ofDigitChars_replicate_zero]
    rw [Nat.mul_comm]; rfl
  unfold fractionChars
  split
  · rename_i h0
    rw [h0, List.nil_append]
    unfold readFraction
    split
    · simp at hpoint
    · rfl
  · split
    · rw [hdigits 3 _ (by decide) (by decide) (by omega)]
      simp only [Option.some.injEq, Prod.mk.injEq, and_true]
      omega
    · split
      · rw [hdigits 6 _ (by decide) (by decide) (by omega)]
        simp only [Option.some.injEq, Prod.mk.injEq, and_true]
        omega
      · rw [hdigits 9 _ (by decide) (by decide) hn]
        simp

theorem ofOffset?_zero (i : Instant) : ofOffset? i.date i.clock 0 = some i := by
  have hclock := i.isValid_clock
  simp only [Clock.isValid, Bool.and_eq_true, decide_eq_true_eq] at hclock
  obtain ⟨⟨⟨hh, hm⟩, _⟩, _⟩ := hclock
  have hminutes : (i.clock.hour * 60 + i.clock.minute - 0 : Int) = (i.clock.hour * 60 + i.clock.minute : Nat) := by simp
  have hlow : ¬ ((i.clock.hour * 60 + i.clock.minute : Nat) : Int) < 0 := by omega
  have hhigh : ((i.clock.hour * 60 + i.clock.minute : Nat) : Int) < 1440 := by omega
  have hmod : (((i.clock.hour * 60 + i.clock.minute : Nat) : Int) % 1440).toNat =
    i.clock.hour * 60 + i.clock.minute := by omega
  have hhour : (i.clock.hour * 60 + i.clock.minute) / 60 = i.clock.hour := by omega
  have hminute : (i.clock.hour * 60 + i.clock.minute) % 60 = i.clock.minute := by omega
  simp only [ofOffset?, i.isValid_date, i.isValid_clock, Bool.and_self, if_true, hminutes, hlow, hhigh, if_false, hmod,
    hhour, hminute]
  exact of?_date_clock i

theorem ofChars?_toChars (i : Instant) : ofChars? i.toChars = some i := by
  have hdate := i.isValid_date
  have hclock := i.isValid_clock
  simp only [Date.isValid, Bool.and_eq_true, decide_eq_true_eq] at hdate
  simp only [Clock.isValid, Bool.and_eq_true, decide_eq_true_eq] at hclock
  have hday : i.date.day < 100 := by
    have : Date.daysInMonth i.date.year i.date.month ≤ 31 := by
      unfold Date.daysInMonth
      repeat' split
      all_goals omega
    omega
  have hmonth : i.date.month < 100 := by omega
  have hhour : i.clock.hour < 100 := by omega
  have hminute : i.clock.minute < 100 := by omega
  have hsecond : i.clock.second < 100 := by omega
  -- Each field ends where a mark follows, so the fields are read one after the other.
  have hchars : i.toChars = yearChars i.date.year ++ '-' :: (padded 2 i.date.month ++ '-' :: (padded 2 i.date.day ++
      'T' :: (padded 2 i.clock.hour ++ ':' :: (padded 2 i.clock.minute ++ ':' :: (padded 2 i.clock.second ++
        (fractionChars i.clock.nano ++ ['Z'])))))) := by
    simp [toChars]
  have hdash : isBlank '-' = false := by decide
  have hcolon : isBlank ':' = false := by decide
  have hread : readDate i.toChars = some (i.date, 'T' :: (padded 2 i.clock.hour ++ ':' :: (padded 2 i.clock.minute ++
      ':' :: (padded 2 i.clock.second ++ (fractionChars i.clock.nano ++ ['Z']))))) := by
    simp only [hchars, readDate, readYear_yearChars _ (endsDigits_cons _ (show '-'.isDigit = false by decide)),
      expect_cons hdash, readField_padded hmonth, readField_padded hday, Option.bind_eq_bind, Option.bind_some]
    rfl
  have htime : readClock (padded 2 i.clock.hour ++ ':' :: (padded 2 i.clock.minute ++ ':' :: (padded 2 i.clock.second ++
      (fractionChars i.clock.nano ++ ['Z'])))) = some (i.clock, ['Z']) := by
    have hfraction := readFraction_fractionChars hclock.2 (endsDigits_cons [] (show 'Z'.isDigit = false by decide))
      (by simp)
    simp only [readClock, readField_padded hhour, readField_padded hminute, readField_padded hsecond,
      expect_cons hcolon, hfraction, Option.bind_eq_bind, Option.bind_some]
    rfl
  have hmark : isDateMark 'T' = true := rfl
  have hzone : readZone (skipBlanks ['Z']) = some (0, []) := rfl
  simp only [ofChars?, hread, hmark, htime, hzone, Option.bind_eq_bind, Option.bind_some, if_true]
  exact ofOffset?_zero i

theorem parse?_text (i : Instant) : parse? i.text = some i := by
  rw [parse?, text, String.toList_ofList]
  exact ofChars?_toChars i

end Instant

/-! ## Identifiers -/

namespace Uuid

theorem length_bytes_within (u : Uuid) {start count : Nat} (h : start + count ≤ 16) :
    ((u.bytes.drop start).take count).length = count := by
  have := u.length_bytes
  simp only [List.length_take, List.length_drop]
  omega

theorem readBytes_group (u : Uuid) {start count : Nat} (h : start + count ≤ 16) (rest : List Char) :
    Hex.readBytes count (u.group start count ++ rest) = some ((u.bytes.drop start).take count, rest) := by
  have hread := Hex.readBytes_flatMap_ofByte ((u.bytes.drop start).take count) rest
  rwa [u.length_bytes_within h] at hread

theorem ofGroups?_toChars (u : Uuid) : ofGroups? u.toChars = some u := by
  have hchars : u.toChars = u.group 0 4 ++ '-' :: (u.group 4 2 ++ '-' :: (u.group 6 2 ++ '-' :: (u.group 8 2 ++
      '-' :: (u.group 10 6 ++ [])))) := by simp [toChars]
  have hbytes : (u.bytes.drop 0).take 4 ++ (u.bytes.drop 4).take 2 ++ (u.bytes.drop 6).take 2 ++
      (u.bytes.drop 8).take 2 ++ (u.bytes.drop 10).take 6 = u.bytes := by
    rw [List.drop_zero, ← List.take_add, ← List.take_add, ← List.take_add, ← List.take_add]
    exact List.take_of_length_le (Nat.le_of_eq u.length_bytes)
  simp only [hchars, ofGroups?, readBytes_group u (show 0 + 4 ≤ 16 by decide),
    readBytes_group u (show 4 + 2 ≤ 16 by decide), readBytes_group u (show 6 + 2 ≤ 16 by decide),
    readBytes_group u (show 8 + 2 ≤ 16 by decide), readBytes_group u (show 10 + 6 ≤ 16 by decide), hyphen?,
    Option.bind_eq_bind, Option.bind_some, List.isEmpty_nil, if_true, hbytes]
  exact ofBytes?_bytes u

theorem length_group (u : Uuid) {start count : Nat} (h : start + count ≤ 16) :
    (u.group start count).length = 2 * count := by
  have hbyte : (fun b => (Hex.ofByte b).length) = fun _ => 2 := rfl
  rw [group, List.length_flatMap, hbyte, List.map_const', List.sum_replicate_nat, u.length_bytes_within h,
    Nat.mul_comm]

theorem exists_toChars_eq (u : Uuid) :
    ∃ c rest, u.toChars = c :: rest ∧ c ≠ '\x7b' ∧ c.toLower ≠ 'u' := by
  have hdigit : ∀ n : Fin 16, Hex.digit n ≠ '\x7b' ∧ (Hex.digit n).toLower ≠ 'u' := by decide
  obtain ⟨b, bytes, hb⟩ := List.exists_cons_of_length_eq_add_one (n := 15) u.length_bytes
  have hlt : b.toNat / 16 < 16 := by have := b.toNat_lt; omega
  refine ⟨Hex.digit (b.toNat / 16), u.toChars.tail, ?_, hdigit ⟨_, hlt⟩⟩
  simp [toChars, group, hb, Hex.ofByte]

theorem parse?_text (u : Uuid) : parse? u.text = some u := by
  obtain ⟨c, rest, hchars, hbrace, hprefix⟩ := u.exists_toChars_eq
  have hlength : u.toChars.length ≠ 32 := by
    simp [toChars, length_group u (show 0 + 4 ≤ 16 by decide), length_group u (show 4 + 2 ≤ 16 by decide),
      length_group u (show 6 + 2 ≤ 16 by decide), length_group u (show 8 + 2 ≤ 16 by decide),
      length_group u (show 10 + 6 ≤ 16 by decide)]
  have hurn : afterUrnPrefix? u.toChars = none := by
    rw [afterUrnPrefix?, if_neg]
    rw [hchars]
    intro heq
    exact hprefix (List.cons.inj heq).1
  rw [parse?, text, String.toList_ofList, ofChars?, if_neg hlength, hurn]
  · exact ofGroups?_toChars u
  · intro rest' heq
    exact hbrace (List.cons.inj (hchars.symm.trans heq)).1

end Uuid

end Statechart
