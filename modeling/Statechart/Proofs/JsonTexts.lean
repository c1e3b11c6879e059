import Mathlib.Data.List.Basic
import Mathlib.Data.List.TakeDrop
import Statechart.Json.Reader
import Statechart.Json.Writer

/-!
# Written values are read back

Reading the text of a value gives the value, as long as its numbers are natural ones. A part of the text is read
whatever follows it, so the proof goes along the value, with as much fuel as there are characters.
-/

namespace Statechart.Json

/-! ## Values with natural numbers only -/

mutual

def IsWhole : Json → Prop
  | .number _ => False
  | .array items => AreWhole items
  | .object members => HasWhole members
  | _ => True

def AreWhole : List Json → Prop
  | [] => True
  | item :: rest => item.IsWhole ∧ AreWhole rest

def HasWhole : List (Content × Json) → Prop
  | [] => True
  | (_, value) :: rest => value.IsWhole ∧ HasWhole rest

end

/-! ## Blanks -/

theorem skipBlanks_newline (depth : Nat) (s : List Char) : skipBlanks (newline depth ++ s) = skipBlanks s := by
  refine List.dropWhile_append_of_pos fun c hc => ?_
  rcases List.mem_cons.mp hc with rfl | hc
  · rfl
  · obtain rfl := List.eq_of_mem_replicate hc
    rfl

theorem skipBlanks_cons {c : Char} (hc : isBlank c = false) (s : List Char) : skipBlanks (c :: s) = c :: s := by
  simp [skipBlanks, hc]

section
variable (fuel depth : Nat) (s : List Char)

theorem readValue_newline : readValue fuel (newline depth ++ s) = readValue fuel s := by
  cases fuel <;> simp only [readValue, skipBlanks_newline]

theorem readValue_blank : readValue fuel (' ' :: s) = readValue fuel s := by
  cases fuel <;> rfl

theorem readItems_newline : readItems fuel (newline depth ++ s) = readItems fuel s := by
  cases fuel <;> simp only [readItems, skipBlanks_newline]

theorem readMember_newline : readMember fuel (newline depth ++ s) = readMember fuel s := by
  cases fuel <;> simp only [readMember, skipBlanks_newline]

theorem readMembers_newline : readMembers fuel (newline depth ++ s) = readMembers fuel s := by
  cases fuel <;> simp only [readMembers, skipBlanks_newline]

end

/-! ## Strings -/

/-- How a written character is read: by its number, or as what it is. -/
def pieceOf (c : Char) : Piece := if (escape c).length = 6 then .unit c.toNat else .char c

theorem codeUnit?_of_lt {n : Nat} (hn : n < 32) :
    codeUnit? '0' '0' (Hex.digit (n / 16)) (Hex.digit (n % 16)) = some n := by
  have hzero : Hex.value? '0' = some 0 := rfl
  simp only [codeUnit?, hzero, Hex.value?_digit (show n / 16 < 16 by omega),
    Hex.value?_digit (show n % 16 < 16 by omega), Option.bind_eq_bind, Option.bind_some, Option.pure_def,
    Option.some.injEq]
  omega

theorem readPieces_escape (c : Char) (s : List Char) :
    readPieces (escape c ++ s) = (readPieces s).map fun (pieces, rest) => (pieceOf c :: pieces, rest) := by
  unfold pieceOf escape
  split
  case h_8 hquote hbackslash _ _ _ _ _ =>
    split
    · rename_i hc
      cases h : readPieces s <;> simp [readPieces, codeUnit?_of_lt hc, h]
    · rename_i hc
      rw [List.cons_append, List.nil_append,
        readPieces.eq_5 c s hquote (fun _ _ _ _ _ hc _ => hbackslash hc) (fun _ _ hc _ => hbackslash hc)]
      have hne : (c == '\\') = false := by simpa using hbackslash
      cases h : readPieces s <;> simp [hne, hc]
  all_goals cases h : readPieces s <;> simp [readPieces, unescape?, h]

theorem readPieces_written (chars rest : List Char) :
    readPieces (chars.flatMap escape ++ '"' :: rest) = some (chars.map pieceOf, rest) := by
  induction chars with
  | nil => rfl
  | cons c chars ih => simp [readPieces_escape, ih]

theorem pieceOf_cases (c : Char) : pieceOf c = .char c ∨ pieceOf c = .unit c.toNat ∧ c.toNat < 32 := by
  unfold pieceOf escape
  split <;> try simp
  split <;> simp_all

theorem assemble_unit {code : Nat} (hhigh : isHighSurrogate code = false) (hlow : isLowSurrogate code = false)
    (pieces : List Piece) : assemble (.unit code :: pieces) = (assemble pieces).map (Char.ofNat code :: ·) := by
  cases pieces with
  | nil => simp [assemble, hhigh, hlow]
  | cons piece pieces => cases piece <;> simp [assemble, hhigh, hlow]

theorem assemble_pieces (chars : List Char) : assemble (chars.map pieceOf) = some chars := by
  induction chars with
  | nil => rfl
  | cons c chars ih =>
    rw [List.map_cons]
    rcases pieceOf_cases c with hc | ⟨hc, hlt⟩
    · rw [hc, assemble, ih]
      rfl
    · have hhigh : isHighSurrogate c.toNat = false := by simp [isHighSurrogate]; omega
      have hlow : isLowSurrogate c.toNat = false := by simp [isLowSurrogate]; omega
      rw [hc, assemble_unit hhigh hlow, ih, Option.map_some, Char.ofNat_toNat]

theorem exists_writeContent_eq (content : Content) : ∃ chars, writeContent content = '"' :: chars ∧
    ∀ rest, readContent (chars ++ rest) = some (content, rest) := by
  cases content with
  | none =>
    refine ⟨_, rfl, fun rest => ?_⟩
    have hunit : codeUnit? 'd' '8' '0' '0' = some 0xD800 := by decide
    simp [readContent, readPieces, hunit, assemble, isHighSurrogate]
  | some content =>
    refine ⟨_, rfl, fun rest => ?_⟩
    have hread := readPieces_written content.toList rest
    simp [readContent, hread, assemble_pieces]

/-! ## Numbers -/

/-- A number that comes before does not go on here. -/
def EndsNumber (rest : List Char) : Prop := ∀ c ∈ rest.head?, c.isDigit = false ∧ c ≠ '.' ∧ c ≠ 'e' ∧ c ≠ 'E'

theorem head?_toDigits_ne (n : Nat) (hn : 0 < n) : (Nat.toDigits 10 n).head? ≠ some '0' := by
  induction n using Nat.strongRecOn with
  | ind n ih =>
  by_cases hlt : n < 10
  · have hdigit : ∀ k : Fin 10, 0 < k.val → Nat.digitChar k ≠ '0' := by decide
    rw [Nat.toDigits_of_lt_base hlt]
    simpa using hdigit ⟨n, hlt⟩ hn
  · have hhead := ih (n / 10) (by omega) (by omega)
    rw [Nat.toDigits_of_base_le (by decide) (by omega), List.head?_append_of_ne_nil _ Nat.toDigits_ne_nil]
    exact hhead

theorem readDigits_toDigits (n : Nat) {rest : List Char} (hrest : EndsNumber rest) :
    readDigits (Nat.toDigits 10 n ++ rest) = some (Nat.toDigits 10 n, rest) := by
  have hd : ∀ c ∈ Nat.toDigits 10 n, c.isDigit = true := fun c => Nat.isDigit_of_mem_toDigits (by decide) (by decide)
  have hspan : (Nat.toDigits 10 n ++ rest).span Char.isDigit = (Nat.toDigits 10 n, rest) := by
    rw [List.span_eq_takeWhile_dropWhile, List.takeWhile_append_of_pos hd, List.dropWhile_append_of_pos hd]
    cases rest with
    | nil => simp
    | cons c rest => simp [(hrest c rfl).1]
  rw [readDigits, hspan]
  split
  · rename_i heq
    exact absurd (Prod.mk.inj heq).1 Nat.toDigits_ne_nil
  · rename_i heq
    rw [heq]

theorem readWhole_toDigits (n : Nat) {rest : List Char} (hrest : EndsNumber rest) :
    readWhole (Nat.toDigits 10 n ++ rest) = some (Nat.toDigits 10 n, rest) := by
  rw [readWhole, readDigits_toDigits n hrest]
  rcases Nat.eq_zero_or_pos n with rfl | hn
  · rfl
  · simp [head?_toDigits_ne n hn]

theorem readFraction_of_endsNumber {rest : List Char} (hrest : EndsNumber rest) :
    readFraction rest = some ([], rest) := by
  unfold readFraction
  split
  · exact absurd rfl (hrest _ rfl).2.1
  · rfl

theorem readExponent_of_endsNumber {rest : List Char} (hrest : EndsNumber rest) :
    readExponent rest = some ([], rest) := by
  cases rest with
  | nil => rfl
  | cons c rest =>
    obtain ⟨_, _, he, hE⟩ := hrest c rfl
    simp [readExponent, he, hE]

theorem exists_toDigits_eq (n : Nat) : ∃ c digits, Nat.toDigits 10 n = c :: digits ∧ c.isDigit = true := by
  obtain ⟨c, digits, hdigits⟩ := List.exists_cons_of_ne_nil (Nat.toDigits_ne_nil (n := n) (b := 10))
  have hmem : c ∈ Nat.toDigits 10 n := hdigits ▸ List.mem_cons_self
  exact ⟨c, digits, hdigits, Nat.isDigit_of_mem_toDigits (by decide) (by decide) hmem⟩

theorem readNumber_toDigits (n : Nat) {rest : List Char} (hrest : EndsNumber rest) :
    readNumber (Nat.toDigits 10 n ++ rest) = some (.natural n, rest) := by
  have hsign : ∀ s, Nat.toDigits 10 n ++ rest = '-' :: s → False := by
    obtain ⟨c, digits, hdigits, hc⟩ := exists_toDigits_eq n
    rw [hdigits]
    rintro s heq
    obtain ⟨rfl, _⟩ := List.cons.inj heq
    cases hc
  rw [readNumber.eq_2 _ hsign]
  simp [readWhole_toDigits n hrest, readFraction_of_endsNumber hrest, readExponent_of_endsNumber hrest]

/-! ## Values -/

theorem isBlank_of_isDigit {c : Char} (hc : c.isDigit = true) : isBlank c = false ∧ c ≠ ']' := by
  have hne : ∀ d, d.isDigit = false → c ≠ d := by
    rintro d hd rfl
    simp [hc] at hd
  simp [isBlank, hne]

theorem readValue_toDigits (fuel n : Nat) {rest : List Char} (hrest : EndsNumber rest) :
    readValue (fuel + 1) (Nat.toDigits 10 n ++ rest) = some (.natural n, rest) := by
  have hnumber := readNumber_toDigits n hrest
  obtain ⟨c, digits, hdigits, hc⟩ := exists_toDigits_eq n
  rw [hdigits, List.cons_append] at hnumber ⊢
  rw [readValue, skipBlanks_cons (isBlank_of_isDigit hc).1]
  split
  all_goals first | exact hnumber | (rename_i heq; obtain ⟨rfl, _⟩ := List.cons.inj heq; cases hc)

theorem readValue_array (fuel depth : Nat) {c : Char} (hc : isBlank c = false) (hne : c ≠ ']') (s : List Char) :
    readValue (fuel + 1) ('[' :: (newline depth ++ c :: s)) = do
      let (item, rest) ← readValue fuel (c :: s)
      let (items, rest) ← readItems fuel rest
      return (.array (item :: items), rest) := by
  simp only [readValue, skipBlanks_cons (show isBlank '[' = false by decide), skipBlanks_newline, skipBlanks_cons hc]
  split
  · rename_i heq
    exact absurd (List.cons.inj heq).1 hne
  · rfl

theorem readValue_object (fuel depth : Nat) (s : List Char) :
    readValue (fuel + 1) ('\x7b' :: (newline depth ++ '"' :: s)) = do
      let (member, rest) ← readMember fuel ('"' :: s)
      let (members, rest) ← readMembers fuel rest
      return (.object (member :: members), rest) := by
  simp only [readValue, skipBlanks_cons (show isBlank '\x7b' = false by decide), skipBlanks_newline,
    skipBlanks_cons (show isBlank '"' = false by decide)]
  rfl

theorem endsNumber_newline (depth : Nat) (s : List Char) : EndsNumber (newline depth ++ s) := by
  rintro _ ⟨⟩
  decide

theorem endsNumber_items (depth outer : Nat) (items : List Json) (s : List Char) :
    EndsNumber (writeItems depth items ++ (newline outer ++ s)) := by
  cases items with
  | nil => exact endsNumber_newline outer s
  | cons item items =>
    rintro _ ⟨⟩
    decide

theorem endsNumber_members (depth outer : Nat) (members : List (Content × Json)) (s : List Char) :
    EndsNumber (writeMembers depth members ++ (newline outer ++ s)) := by
  cases members with
  | nil => exact endsNumber_newline outer s
  | cons member members =>
    rintro _ ⟨⟩
    decide

theorem exists_write_eq {value : Json} (hw : value.IsWhole) (depth : Nat) :
    ∃ c s, value.write depth = c :: s ∧ isBlank c = false ∧ c ≠ ']' := by
  cases value with
  | null => exact ⟨_, _, rfl, by decide, by decide⟩
  | bool value => cases value <;> exact ⟨_, _, rfl, by decide, by decide⟩
  | natural n =>
    obtain ⟨c, digits, hdigits, hc⟩ := exists_toDigits_eq n
    exact ⟨c, digits, hdigits, isBlank_of_isDigit hc⟩
  | number literal => cases hw
  | text content =>
    obtain ⟨chars, hchars, _⟩ := exists_writeContent_eq content
    exact ⟨'"', chars, hchars, by decide, by decide⟩
  | array items => cases items <;> exact ⟨_, _, rfl, by decide, by decide⟩
  | object members => cases members <;> exact ⟨_, _, rfl, by decide, by decide⟩

mutual

theorem readValue_write : ∀ (value : Json) (depth fuel : Nat) (rest : List Char), value.IsWhole → EndsNumber rest →
    (value.write depth).length < fuel → readValue fuel (value.write depth ++ rest) = some (value, rest)
  | .null, depth, fuel + 1, rest, _, _, _ => by
    simp [write, readValue, skipBlanks_cons (show isBlank 'n' = false by decide)]
  | .bool true, depth, fuel + 1, rest, _, _, _ => by
    simp [write, readValue, skipBlanks_cons (show isBlank 't' = false by decide)]
  | .bool false, depth, fuel + 1, rest, _, _, _ => by
    simp [write, readValue, skipBlanks_cons (show isBlank 'f' = false by decide)]
  | .natural n, depth, fuel + 1, rest, _, hrest, _ => readValue_toDigits fuel n hrest
  | .text content, depth, fuel + 1, rest, _, _, _ => by
    obtain ⟨chars, hchars, hread⟩ := exists_writeContent_eq content
    simp [write, hchars, readValue, skipBlanks_cons (show isBlank '"' = false by decide), hread]
  | .array [], depth, fuel + 1, rest, _, _, _ => by
    simp [write, readValue, skipBlanks_cons (show isBlank '[' = false by decide),
      skipBlanks_cons (show isBlank ']' = false by decide)]
  | .array (item :: items), depth, fuel + 1, rest, hw, _, hf => by
    simp only [write, List.length_append, List.length_cons] at hf
    have hitem := readValue_write item (depth + 1) fuel _ hw.1 (endsNumber_items (depth + 1) depth items (']' :: rest))
      (by omega)
    have hitems := readItems_write items (depth + 1) depth fuel rest hw.2 (by omega)
    obtain ⟨c, s, hwrite, hblank, hne⟩ := exists_write_eq hw.1 (depth + 1)
    rw [hwrite, List.cons_append] at hitem
    simp only [write, hwrite, List.append_assoc, List.cons_append, List.nil_append]
    simp [readValue_array fuel (depth + 1) hblank hne, hitem, hitems]
  | .object [], depth, fuel + 1, rest, _, _, _ => by
    simp [write, readValue, skipBlanks_cons (show isBlank '\x7b' = false by decide),
      skipBlanks_cons (show isBlank '\x7d' = false by decide)]
  | .object ((name, value) :: members), depth, fuel + 1, rest, hw, _, hf => by
    simp only [write, List.length_append, List.length_cons] at hf
    have hmember := readMember_write (name, value) (depth + 1) fuel _ hw.1
      (endsNumber_members (depth + 1) depth members ('\x7d' :: rest)) (by omega)
    have hmembers := readMembers_write members (depth + 1) depth fuel rest hw.2 (by omega)
    obtain ⟨chars, hchars, _⟩ := exists_writeContent_eq name
    simp only [write, writeMember, hchars, List.append_assoc, List.cons_append, List.nil_append] at hmember ⊢
    simp [readValue_object, hmember, hmembers]

theorem readItems_write : ∀ (items : List Json) (depth outer fuel : Nat) (rest : List Char), AreWhole items →
    (writeItems depth items).length < fuel →
    readItems fuel (writeItems depth items ++ (newline outer ++ ']' :: rest)) = some (items, rest)
  | [], depth, outer, fuel + 1, rest, _, _ => by
    rw [writeItems, List.nil_append, readItems_newline, readItems, skipBlanks_cons (by decide)]
    rfl
  | item :: items, depth, outer, fuel + 1, rest, hw, hf => by
    simp only [writeItems, List.length_append, List.length_cons] at hf
    have hitem := readValue_write item depth fuel _ hw.1 (endsNumber_items depth outer items (']' :: rest)) (by omega)
    have hitems := readItems_write items depth outer fuel rest hw.2 (by omega)
    simp [writeItems, readItems, skipBlanks_cons (show isBlank ',' = false by decide), readValue_newline, hitem, hitems]

theorem readMember_write : ∀ (member : Content × Json) (depth fuel : Nat) (rest : List Char), member.2.IsWhole →
    EndsNumber rest → (writeMember depth member).length < fuel →
    readMember fuel (writeMember depth member ++ rest) = some (member, rest)
  | (name, value), depth, fuel + 1, rest, hw, hrest, hf => by
    simp only [writeMember, List.length_append, List.length_cons] at hf
    have hvalue := readValue_write value depth fuel rest hw hrest (by omega)
    obtain ⟨chars, hchars, hread⟩ := exists_writeContent_eq name
    simp only [writeMember, hchars, List.append_assoc, List.cons_append, List.nil_append]
    simp [readMember, skipBlanks_cons (show isBlank '"' = false by decide),
      skipBlanks_cons (show isBlank ':' = false by decide), hread, readValue_blank, hvalue]

theorem readMembers_write : ∀ (members : List (Content × Json)) (depth outer fuel : Nat) (rest : List Char),
    HasWhole members → (writeMembers depth members).length < fuel →
    readMembers fuel (writeMembers depth members ++ (newline outer ++ '\x7d' :: rest)) = some (members, rest)
  | [], depth, outer, fuel + 1, rest, _, _ => by
    rw [writeMembers, List.nil_append, readMembers_newline, readMembers, skipBlanks_cons (by decide)]
    rfl
  | member :: members, depth, outer, fuel + 1, rest, hw, hf => by
    simp only [writeMembers, List.length_append, List.length_cons] at hf
    have hmember := readMember_write member depth fuel _ hw.1 (endsNumber_members depth outer members ('\x7d' :: rest))
      (by omega)
    have hmembers := readMembers_write members depth outer fuel rest hw.2 (by omega)
    simp [writeMembers, readMembers, skipBlanks_cons (show isBlank ',' = false by decide), readMember_newline, hmember,
      hmembers]

end

theorem parse?_render {value : Json} (hw : value.IsWhole) : parse? value.render = some value := by
  have htext : value.render.toList = value.write 0 := String.toList_ofList
  have hread := readValue_write value 0 ((value.write 0).length + 1) [] hw (by rintro _ ⟨⟩) (Nat.lt_succ_self _)
  rw [List.append_nil] at hread
  rw [parse?, htext, hread]
  rfl

end Statechart.Json
