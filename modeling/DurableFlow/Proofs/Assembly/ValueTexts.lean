import DurableFlow.Json.Slots
import Mathlib.Tactic.SplitIfs

/-!
# Texts of values

A value that is written as a text is read back as it was. Characters that are escaped within a quoted
text are read as themselves, the digits of a whole number amount to that number, and fields keep
their order. Doubles are left out: their texts are rounded once more when they are read.

Main statement: `Document.read_compact`.
-/

namespace DurableFlow

namespace Document

/-! ## Texts -/

/-- Wherever four digits follow at once that are marked as those of a character, they can be read. -/
def IsPlain (cs : List Char) : Prop :=
  ∀ a b c d rest, cs = '\\' :: 'u' :: a :: b :: c :: d :: rest → ∃ n, hex4? a b c d = some n

theorem hex4?_control {n : Nat} (h : n < 32) :
    hex4? '0' '0' (Json.hexDigit (n / 16)) (Json.hexDigit n) = some n := by
  revert n
  decide

theorem readText_quote (acc rest : List Char) :
    readText acc true ('"' :: rest) = some (some (String.ofList acc.reverse), rest) := by
  simp [readText]

theorem readText_simple {acc rest : List Char} {c c' : Char} (h : simpleEscape? c = some c')
    (hu : c ≠ 'u') : readText acc true ('\\' :: c :: rest) = readText (c' :: acc) true rest := by
  rw [readText]
  · rw [h]
  · simp [hu]
  · simp [hu]

theorem readText_self {acc rest : List Char} {c : Char} (hquote : c ≠ '"') (hslash : c ≠ '\\')
    (hc : ¬ c.toNat < 32) : readText acc true (c :: rest) = readText (c :: acc) true rest := by
  rw [readText]
  · rw [if_neg hc]
  · exact hquote
  · exact fun _ _ _ _ _ _ _ _ _ h => absurd h hslash
  · exact fun _ _ _ _ _ h => absurd h hslash
  · exact fun _ _ h => absurd h hslash

theorem readText_control {acc rest : List Char} {c : Char} (h : IsPlain rest) (hc : c.toNat < 32) :
    readText acc true
        ('\\' :: 'u' :: '0' :: '0' :: Json.hexDigit (c.toNat / 16) :: Json.hexDigit c.toNat :: rest) =
      readText (c :: acc) true rest := by
  have hhex := hex4?_control hc
  have hlow : ¬ (isHighSurrogate c.toNat = true ∨ isLowSurrogate c.toNat = true) := by
    simp only [isHighSurrogate, isLowSurrogate, Bool.and_eq_true, decide_eq_true_eq]
    omega
  by_cases hpair : ∃ a b c d rest', rest = '\\' :: 'u' :: a :: b :: c :: d :: rest'
  · obtain ⟨a, b, c', d, rest', rfl⟩ := hpair
    obtain ⟨n, hn⟩ := h _ _ _ _ _ rfl
    rw [readText]
    simp only [hhex, hn]
    rw [if_neg fun hs => hlow (.inl hs.1), if_neg hlow, Char.ofNat_toNat]
  · rw [readText]
    · simp only [hhex]
      rw [if_neg hlow, Char.ofNat_toNat]
    · exact fun a b c' d rest' heq => hpair ⟨a, b, c', d, rest', heq⟩

/-- A character as it stands within a quoted text is read back. -/
theorem readText_escape {acc : List Char} (c : Char) {rest : List Char} (h : IsPlain rest) :
    readText acc true (Json.escape c ++ rest) = readText (c :: acc) true rest := by
  unfold Json.escape
  split_ifs with h₁ h₂ h₃ h₄ h₅ h₆ h₇ hcontrol
  · subst h₁
    exact readText_simple rfl (by decide)
  · subst h₂
    exact readText_simple rfl (by decide)
  · exact h₃ ▸ readText_simple (c := 'b') rfl (by decide)
  · exact h₄ ▸ readText_simple (c := 'f') rfl (by decide)
  · exact h₅ ▸ readText_simple (c := 'n') rfl (by decide)
  · exact h₆ ▸ readText_simple (c := 'r') rfl (by decide)
  · exact h₇ ▸ readText_simple (c := 't') rfl (by decide)
  · exact readText_control h hcontrol
  · exact readText_self h₁ h₂ hcontrol

theorem isPlain_escape (c : Char) (rest : List Char) : IsPlain (Json.escape c ++ rest) := by
  intro a b a' b' rest' heq
  have hsecond : ∀ {d : Char} {cs cs' : List Char}, '\\' :: d :: cs = '\\' :: 'u' :: cs' → d = 'u' :=
    fun h => (List.cons.inj (List.cons.inj h).2).1
  unfold Json.escape at heq
  split_ifs at heq with h₁ h₂ h₃ h₄ h₅ h₆ h₇ hcontrol
  · exact absurd (hsecond heq) (by decide)
  · exact absurd (hsecond heq) (by decide)
  · exact absurd (hsecond heq) (by decide)
  · exact absurd (hsecond heq) (by decide)
  · exact absurd (hsecond heq) (by decide)
  · exact absurd (hsecond heq) (by decide)
  · exact absurd (hsecond heq) (by decide)
  · simp only [List.cons_append, List.cons.injEq, true_and] at heq
    obtain ⟨rfl, rfl, rfl, rfl, -⟩ := heq
    exact ⟨_, hex4?_control hcontrol⟩
  · exact absurd (List.cons.inj heq).1 h₂

theorem isPlain_quoted (cs rest : List Char) : IsPlain (cs.flatMap Json.escape ++ '"' :: rest) := by
  cases cs with
  | nil => simp [IsPlain]
  | cons c cs =>
    rw [List.flatMap_cons, List.append_assoc]
    exact isPlain_escape c _

theorem readText_quoted (acc cs rest : List Char) :
    readText acc true (cs.flatMap Json.escape ++ '"' :: rest) =
      some (some (String.ofList (acc.reverse ++ cs)), rest) := by
  induction cs generalizing acc with
  | nil => simp [readText_quote]
  | cons c cs ih =>
    rw [List.flatMap_cons, List.append_assoc, readText_escape c (isPlain_quoted cs rest), ih]
    simp

/-! ## Whole numbers -/

/-- Nothing follows that would be a part of a number. -/
def EndsNumber (cs : List Char) : Prop :=
  ∀ c ∈ cs.head?, c.isDigit = false ∧ c ≠ '.' ∧ c ≠ 'e' ∧ c ≠ 'E'

theorem ne_of_isDigit {c d : Char} (hc : c.isDigit = true) (hd : d.isDigit = false) : c ≠ d := by
  rintro rfl
  rw [hc] at hd
  cases hd

theorem isSpace_of_isDigit {c : Char} (h : c.isDigit = true) : isSpace c = false := by
  simp [isSpace, ne_of_isDigit h (d := ' ') rfl, ne_of_isDigit h (d := '\n') rfl,
    ne_of_isDigit h (d := '\t') rfl, ne_of_isDigit h (d := '\r') rfl]

/-- The value of a digit. -/
def digitValue (c : Char) : Nat := c.toNat - '0'.toNat

theorem digitValue_digitChar : ∀ n < 10, digitValue n.digitChar = n := by decide

theorem splitDigits_append {ds rest : List Char} (hds : ∀ c ∈ ds, c.isDigit = true)
    (hrest : ∀ c ∈ rest.head?, c.isDigit = false) :
    splitDigits (ds ++ rest) = (ds.map digitValue, rest) := by
  have hstop : rest.takeWhile Char.isDigit = [] ∧ rest.dropWhile Char.isDigit = rest := by
    cases rest with
    | nil => exact ⟨rfl, rfl⟩
    | cons c rest => simp [hrest c rfl]
  rw [splitDigits, List.takeWhile_append_of_pos hds, List.dropWhile_append_of_pos hds, hstop.1, hstop.2,
    List.append_nil]
  rfl

/-- No zero stands in front of other digits. -/
theorem map_toDigits (n : Nat) :
    ∃ d ds, (Nat.toDigits 10 n).map digitValue = d :: ds ∧ ¬ (d = 0 ∧ ds ≠ []) ∧ (d = 0 → n = 0) := by
  induction n using Nat.strongRecOn with
  | ind n ih =>
    rw [Nat.toDigits_eq_if (by decide)]
    split_ifs with hn
    · exact ⟨n, [], by simp [digitValue_digitChar n hn], by simp, id⟩
    · obtain ⟨d, ds, hds, -, hd⟩ := ih (n / 10) (by omega)
      have hpos : d ≠ 0 := fun h => absurd (hd h) (by omega)
      exact ⟨d, ds ++ [digitValue (n % 10).digitChar], by simp [hds], by simp [hpos], by simp [hpos]⟩

theorem le_ofDigitChars (cs : List Char) (m : Nat) : m ≤ Nat.ofDigitChars 10 cs m := by
  induction cs generalizing m with
  | nil => exact Nat.le_refl m
  | cons c cs ih =>
    rw [Nat.ofDigitChars_cons]
    exact Nat.le_trans (by omega) (ih _)

/-- Reading digits that amount to less than 64 bits drops none of them. -/
theorem foldl_whole (cs : List Char) (m : Nat) (h : Nat.ofDigitChars 10 cs m < UInt64.size) :
    (cs.map digitValue).foldl Scan.whole { significand := m } =
      { significand := Nat.ofDigitChars 10 cs m } := by
  induction cs generalizing m with
  | nil => rfl
  | cons c cs ih =>
    rw [Nat.ofDigitChars_cons] at h ⊢
    have hle : m * 10 + digitValue c < UInt64.size := by
      rw [Nat.mul_comm]
      exact Nat.lt_of_le_of_lt (le_ofDigitChars cs _) h
    rw [List.map_cons, List.foldl_cons]
    have hwhole : Scan.whole { significand := m } (digitValue c) =
        { significand := 10 * m + digitValue c } := by
      rw [Scan.whole, if_neg Bool.false_ne_true, if_pos hle, Nat.mul_comm]
    rw [hwhole]
    exact ih _ h

/-- The digits of a number are read as that number. -/
theorem readNumber_toDigits (negative : Bool) {n : Nat} (hn : n < UInt64.size) {rest : List Char}
    (h : EndsNumber rest) :
    readNumber negative (Nat.toDigits 10 n ++ rest) =
      some (wholeNumber negative { significand := n }, rest) := by
  have hsplit : splitDigits (Nat.toDigits 10 n ++ rest) =
      ((Nat.toDigits 10 n).map digitValue, rest) :=
    splitDigits_append (fun _ => Nat.isDigit_of_mem_toDigits (by decide) (by decide))
      fun c hc => (h c hc).1
  have hvalue : Nat.ofDigitChars 10 (Nat.toDigits 10 n) 0 = n :=
    Nat.ofDigitChars_toDigits (by decide) (by decide)
  have hfold := foldl_whole (Nat.toDigits 10 n) 0 (hvalue.symm ▸ hn)
  rw [hvalue] at hfold
  obtain ⟨d, ds, hds, hzero, -⟩ := map_toDigits n
  rw [hds] at hsplit hfold
  simp only [readNumber, hsplit, hfold, if_neg hzero]
  cases rest with
  | nil => rfl
  | cons c rest =>
    obtain ⟨-, hpoint, he, hE⟩ := h c rfl
    split
    · rename_i heq
      cases heq
      exact absurd rfl hpoint
    · simp [readNumber.finish, readNumber.plain, he, hE]

end Document

/-- A whole number within 64 bits. -/
def Number.IsWhole : Number → Prop
  | .int n => -Json.signBit ≤ n ∧ n < UInt64.size
  | .double _ => False

namespace Json

mutual

/-- All numbers of a value are whole. -/
def IsWhole : Json → Prop
  | .number n => n.IsWhole
  | .list items => ItemsWhole items
  | .object fields => FieldsWhole fields
  | _ => True

/-- All numbers of the values of a list are whole. -/
def ItemsWhole : List Json → Prop
  | [] => True
  | v :: vs => v.IsWhole ∧ ItemsWhole vs

/-- All numbers of the values of the fields are whole. -/
def FieldsWhole : List (String × Json) → Prop
  | [] => True
  | (_, v) :: fs => v.IsWhole ∧ FieldsWhole fs

end

theorem isDigit_of_toDigits {n : Nat} {c : Char} (h : c ∈ Nat.toDigits 10 n) : c.isDigit = true :=
  Nat.isDigit_of_mem_toDigits (by decide) (by decide) h

theorem toList_quote (s : String) : (quote s).toList = '"' :: (s.toList.flatMap escape ++ ['"']) := by
  simp [quote]

theorem toList_compact_int (n : Int) : (compact (.number (.int n))).toList =
    if 0 ≤ n then Nat.toDigits 10 n.toNat else '-' :: Nat.toDigits 10 (-n).toNat := by
  show n.repr.toList = _
  rw [Int.repr_eq_if]
  split_ifs <;> simp [Nat.repr_eq_ofList_toDigits]

theorem toList_compact_text (s : String) :
    (compact (.text s)).toList = '"' :: (s.toList.flatMap escape ++ ['"']) := by
  rw [compact, toList_quote]

theorem toList_compact_list (items : List Json) :
    (compact (.list items)).toList = '[' :: ((compactItems items).toList ++ [']']) := by
  simp [compact]

theorem toList_compact_object (fields : List (String × Json)) :
    (compact (.object fields)).toList = '\x7b' :: ((compactFields fields).toList ++ ['\x7d']) := by
  simp [compact]

theorem toList_compactItems_cons (v w : Json) (vs : List Json) :
    (compactItems (v :: w :: vs)).toList = v.compact.toList ++ ',' :: (compactItems (w :: vs)).toList := by
  simp [compactItems]

theorem toList_compactFields_singleton (k : String) (v : Json) :
    (compactFields [(k, v)]).toList = '"' :: (k.toList.flatMap escape ++ '"' :: ':' :: v.compact.toList) := by
  simp [compactFields, toList_quote]

theorem toList_compactFields_cons (k : String) (v : Json) (f : String × Json)
    (fs : List (String × Json)) :
    (compactFields ((k, v) :: f :: fs)).toList =
      '"' :: (k.toList.flatMap escape ++
        '"' :: ':' :: (v.compact.toList ++ ',' :: (compactFields (f :: fs)).toList)) := by
  simp [compactFields, toList_quote]

/-- The text of a value starts with neither a blank nor a closing bracket. -/
theorem compact_head {v : Json} (h : v.IsWhole) :
    ∃ c cs, v.compact.toList = c :: cs ∧ Document.isSpace c = false ∧ c ≠ ']' := by
  cases v with
  | null => exact ⟨_, _, rfl, by decide, by decide⟩
  | bool b => cases b <;> exact ⟨_, _, rfl, by decide, by decide⟩
  | number n =>
    cases n with
    | double bits => exact h.elim
    | int n =>
      rw [toList_compact_int]
      split_ifs
      · cases hds : Nat.toDigits 10 n.toNat with
        | nil => exact absurd hds Nat.toDigits_ne_nil
        | cons c cs =>
          have hc : c.isDigit = true := isDigit_of_toDigits (hds ▸ List.mem_cons_self)
          exact ⟨c, cs, rfl, Document.isSpace_of_isDigit hc, Document.ne_of_isDigit hc rfl⟩
      · exact ⟨_, _, rfl, by decide, by decide⟩
  | text s => exact ⟨_, _, toList_quote s, by decide, by decide⟩
  | list items => exact ⟨_, _, toList_compact_list items, by decide, by decide⟩
  | object fields => exact ⟨_, _, toList_compact_object fields, by decide, by decide⟩

theorem compactItems_head {v : Json} {vs : List Json} (h : ItemsWhole (v :: vs)) :
    ∃ c cs, (compactItems (v :: vs)).toList = c :: cs ∧ Document.isSpace c = false ∧ c ≠ ']' := by
  obtain ⟨c, cs, hc, hspace, hbracket⟩ := compact_head h.1
  cases vs with
  | nil => exact ⟨c, cs, hc, hspace, hbracket⟩
  | cons w vs =>
    rw [toList_compactItems_cons, hc]
    exact ⟨c, _, rfl, hspace, hbracket⟩

theorem compactFields_head (f : String × Json) (fs : List (String × Json)) :
    ∃ cs, (compactFields (f :: fs)).toList = '"' :: cs := by
  cases fs with
  | nil => exact ⟨_, toList_compactFields_singleton f.1 f.2⟩
  | cons g fs => exact ⟨_, toList_compactFields_cons f.1 f.2 g fs⟩

end Json

namespace Document

theorem skipSpace_of_not_isSpace {c : Char} {cs : List Char} (h : isSpace c = false) :
    skipSpace (c :: cs) = c :: cs := by
  simp [skipSpace, h]

theorem readValue_digit {c : Char} {cs : List Char} (hc : c.isDigit = true) (fuel : Nat) :
    readValue (fuel + 1) (c :: cs) =
      (readNumber false (c :: cs)).map fun (n, rest) => (.number n, rest) := by
  rw [readValue, skipSpace_of_not_isSpace (isSpace_of_isDigit hc)]
  split
  all_goals first
    | rename_i heq
      cases heq
      exact absurd hc (by decide)
    | rfl

theorem endsNumber_cons {c : Char} (cs : List Char) (hdigit : c.isDigit = false) (hpoint : c ≠ '.')
    (he : c ≠ 'e') (hE : c ≠ 'E') : EndsNumber (c :: cs) := by
  rintro c' hc'
  obtain rfl : c = c' := by simpa using hc'
  exact ⟨hdigit, hpoint, he, hE⟩

/-- With that much fuel, values and what stands in lists and objects are read back from their texts. -/
structure ReadsBack (fuel : Nat) : Prop where
  value : ∀ {v : Json}, v.IsWhole → 2 * v.compact.toList.length ≤ fuel → ∀ {rest : List Char},
    EndsNumber rest → readValue fuel (v.compact.toList ++ rest) = some (ofJson v, rest)
  items : ∀ {v : Json} {vs : List Json}, Json.ItemsWhole (v :: vs) →
    2 * (Json.compactItems (v :: vs)).toList.length + 1 ≤ fuel → ∀ rest : List Char,
    readItems fuel ((Json.compactItems (v :: vs)).toList ++ ']' :: rest) =
      some (ofItems (v :: vs), rest)
  fields : ∀ {f : String × Json} {fs : List (String × Json)}, Json.FieldsWhole (f :: fs) →
    2 * (Json.compactFields (f :: fs)).toList.length + 1 ≤ fuel → ∀ rest : List Char,
    readFields fuel ((Json.compactFields (f :: fs)).toList ++ '\x7d' :: rest) =
      some (ofFields (f :: fs), rest)

theorem readValue_compact_int {n : Int} (h : (Number.int n).IsWhole) (fuel : Nat) {rest : List Char}
    (hrest : EndsNumber rest) :
    readValue (fuel + 1) ((Json.number (.int n)).compact.toList ++ rest) =
      some (ofJson (.number (.int n)), rest) := by
  obtain ⟨hlow, hhigh⟩ := h
  have hbit : Json.signBit < UInt64.size := by decide
  rw [Json.toList_compact_int]
  split_ifs with hn
  · have hread := readNumber_toDigits false (n := n.toNat) (by omega) hrest
    cases hds : Nat.toDigits 10 n.toNat with
    | nil => exact absurd hds Nat.toDigits_ne_nil
    | cons c cs =>
      have hc : c.isDigit = true := Json.isDigit_of_toDigits (hds ▸ List.mem_cons_self)
      rw [hds] at hread
      rw [List.cons_append, readValue_digit hc, ← List.cons_append, hread]
      simp only [wholeNumber, Bool.false_eq_true, if_false, Bool.not_false, if_true, Option.map_some,
        ofJson, Int.toNat_of_nonneg hn]
  · have hread := readNumber_toDigits true (n := (-n).toNat) (by omega) hrest
    have hbound : 0 < (-n).toNat ∧ (-n).toNat ≤ Json.signBit := by omega
    have hneg : -((-n).toNat : Int) = n := by omega
    rw [List.cons_append, readValue, skipSpace_of_not_isSpace (by decide)]
    simp only [hread]
    simp only [wholeNumber, Bool.not_true, Bool.false_eq_true, if_false, if_pos hbound, hneg,
      Option.map_some, ofJson]

theorem readValue_list {fuel : Nat} {cs : List Char} {c : Char} (hspace : isSpace c = false)
    (hbracket : c ≠ ']') :
    readValue (fuel + 1) ('[' :: c :: cs) =
      (readItems fuel (c :: cs)).map fun (ds, rest) => (.list ds, rest) := by
  rw [readValue, skipSpace_of_not_isSpace (by decide)]
  simp only [skipSpace_of_not_isSpace hspace]
  split
  · rename_i heq
    cases heq
    exact absurd rfl hbracket
  · rfl

theorem readValue_object {fuel : Nat} {cs : List Char} :
    readValue (fuel + 1) ('\x7b' :: '"' :: cs) =
      (readFields fuel ('"' :: cs)).map fun (fs, rest) => (.object fs, rest) := by
  rw [readValue, skipSpace_of_not_isSpace (by decide)]
  simp only [skipSpace_of_not_isSpace (c := '"') (by decide)]
  rfl

theorem ReadsBack.value_succ {fuel : Nat} (h : ReadsBack fuel) {v : Json} (hv : v.IsWhole)
    (hfuel : 2 * v.compact.toList.length ≤ fuel + 1) {rest : List Char} (hrest : EndsNumber rest) :
    readValue (fuel + 1) (v.compact.toList ++ rest) = some (ofJson v, rest) := by
  cases v with
  | null => simp [Json.compact, readValue, skipSpace, isSpace, ofJson]
  | bool b => cases b <;> simp [Json.compact, readValue, skipSpace, isSpace, ofJson]
  | number n =>
    cases n with
    | int n => exact readValue_compact_int hv fuel hrest
    | double bits => exact hv.elim
  | text s =>
    rw [Json.toList_compact_text, List.cons_append, readValue, skipSpace_of_not_isSpace (by decide)]
    simp [readText_quoted, ofJson]
  | list items =>
    cases items with
    | nil => simp [Json.compact, Json.compactItems, readValue, skipSpace, isSpace, ofJson, ofItems]
    | cons w vs =>
      rw [Json.toList_compact_list] at hfuel ⊢
      simp only [List.length_cons, List.length_append] at hfuel
      have hitems := h.items hv (by omega) rest
      obtain ⟨c, cs, hc, hspace, hbracket⟩ := Json.compactItems_head hv
      rw [hc] at hitems ⊢
      rw [List.cons_append, List.append_assoc, List.singleton_append, List.cons_append,
        readValue_list hspace hbracket, ← List.cons_append, hitems]
      rfl
  | object fields =>
    cases fields with
    | nil => simp [Json.compact, Json.compactFields, readValue, skipSpace, isSpace, ofJson, ofFields]
    | cons f fs =>
      rw [Json.toList_compact_object] at hfuel ⊢
      simp only [List.length_cons, List.length_append] at hfuel
      have hfields := h.fields hv (by omega) rest
      obtain ⟨cs, hcs⟩ := Json.compactFields_head f fs
      rw [hcs] at hfields ⊢
      rw [List.cons_append, List.append_assoc, List.singleton_append, List.cons_append,
        readValue_object, ← List.cons_append, hfields]
      rfl

theorem ReadsBack.items_succ {fuel : Nat} (h : ReadsBack fuel) {v : Json} {vs : List Json}
    (hv : Json.ItemsWhole (v :: vs))
    (hfuel : 2 * (Json.compactItems (v :: vs)).toList.length + 1 ≤ fuel + 1) (rest : List Char) :
    readItems (fuel + 1) ((Json.compactItems (v :: vs)).toList ++ ']' :: rest) =
      some (ofItems (v :: vs), rest) := by
  cases vs with
  | nil =>
    rw [Json.compactItems] at hfuel ⊢
    have hread := h.value hv.1 (by omega)
      (endsNumber_cons (c := ']') rest rfl (by decide) (by decide) (by decide))
    rw [readItems, hread]
    simp [skipSpace_of_not_isSpace (show isSpace ']' = false by decide), ofItems]
  | cons w vs =>
    rw [Json.toList_compactItems_cons] at hfuel ⊢
    simp only [List.length_cons, List.length_append] at hfuel
    have hread := h.value hv.1 (by omega) (endsNumber_cons (c := ',')
      ((Json.compactItems (w :: vs)).toList ++ ']' :: rest) rfl (by decide) (by decide) (by decide))
    rw [List.append_assoc, List.cons_append, readItems, hread]
    simp [skipSpace_of_not_isSpace (show isSpace ',' = false by decide), h.items hv.2 (by omega) rest,
      ofItems]

theorem ReadsBack.fields_succ {fuel : Nat} (h : ReadsBack fuel) {f : String × Json}
    {fs : List (String × Json)} (hv : Json.FieldsWhole (f :: fs))
    (hfuel : 2 * (Json.compactFields (f :: fs)).toList.length + 1 ≤ fuel + 1) (rest : List Char) :
    readFields (fuel + 1) ((Json.compactFields (f :: fs)).toList ++ '\x7d' :: rest) =
      some (ofFields (f :: fs), rest) := by
  obtain ⟨k, v⟩ := f
  cases fs with
  | nil =>
    rw [Json.toList_compactFields_singleton] at hfuel ⊢
    simp only [List.length_cons, List.length_append] at hfuel
    have hread := h.value hv.1 (by omega)
      (endsNumber_cons (c := '\x7d') rest rfl (by decide) (by decide) (by decide))
    rw [List.cons_append, readFields, skipSpace_of_not_isSpace (by decide)]
    simp [readText_quoted, skipSpace_of_not_isSpace (show isSpace ':' = false by decide), hread,
      skipSpace_of_not_isSpace (show isSpace '\x7d' = false by decide), ofFields]
  | cons f fs =>
    rw [Json.toList_compactFields_cons] at hfuel ⊢
    simp only [List.length_cons, List.length_append] at hfuel
    have hread := h.value hv.1 (by omega) (endsNumber_cons (c := ',')
      ((Json.compactFields (f :: fs)).toList ++ '\x7d' :: rest) rfl (by decide) (by decide) (by decide))
    rw [List.cons_append, readFields, skipSpace_of_not_isSpace (by decide)]
    simp [readText_quoted, skipSpace_of_not_isSpace (show isSpace ':' = false by decide), hread,
      skipSpace_of_not_isSpace (show isSpace ',' = false by decide), h.fields hv.2 (by omega) rest,
      ofFields]

theorem readsBack (fuel : Nat) : ReadsBack fuel := by
  induction fuel with
  | zero =>
    refine ⟨fun hv hfuel => ?_, fun _ hfuel => absurd hfuel (by omega),
      fun _ hfuel => absurd hfuel (by omega)⟩
    obtain ⟨c, cs, hc, -⟩ := Json.compact_head hv
    simp [hc] at hfuel
  | succ fuel ih => exact ⟨ih.value_succ, ih.items_succ, ih.fields_succ⟩

/-- **A value without doubles is the document that its text is.** -/
theorem read_compact {v : Json} (h : v.IsWhole) : read v.compact = some (ofJson v) := by
  have hend : EndsNumber [] := by simp [EndsNumber]
  have hv := (readsBack (2 * v.compact.toList.length + 2)).value h (by omega) hend
  rw [List.append_nil] at hv
  simp [read, hv, skipSpace]

end Document

end DurableFlow
