import Mathlib.Data.List.Basic
import Mathlib.Data.Nat.Notation

/-!
# Compact JSON text

The bytes a compact JSON writer produces for strings, natural numbers and lists of strings, and a
reader of them. The reader accepts what the writer writes and need not accept anything else, so it
knows no white space and no reordering of fields.

Each reader takes a text and returns a value with the text behind it. Its round trip is stated with
an arbitrary continuation, so that the round trip of an object is the composition of those of its
parts.
-/

namespace Json

/-- A text, as bytes. -/
abbrev Text := List UInt8

/-! ## UTF-8 -/

def toUtf8 (s : String) : Text := s.toByteArray.data.toList

def asciiChar (b : UInt8) : Char := .ofNat b.toNat

/-- The string of bytes that are UTF-8. Plain ASCII needs no decoder. -/
def ofUtf8 (t : Text) : Option String :=
  if t.all (· < 128) then some (.ofList (t.map asciiChar)) else String.fromUTF8? ⟨t.toArray⟩

private theorem utf8EncodeChar_asciiChar {b : UInt8} (h : b < 128) :
    String.utf8EncodeChar (asciiChar b) = [b] := by
  have hall : ∀ n, n < 128 → String.utf8EncodeChar (asciiChar (.ofNat n)) = [.ofNat n] := by decide
  have hb := hall b.toNat h
  rwa [UInt8.ofNat_toNat] at hb

theorem toUtf8_ofList (l : List Char) :
    toUtf8 (.ofList l) = l.flatMap String.utf8EncodeChar := by
  have h : (String.ofList l).toByteArray = (l.flatMap String.utf8EncodeChar).toByteArray := rfl
  rw [toUtf8, h, List.data_toByteArray]

private theorem toUtf8_inj {s s' : String} (h : toUtf8 s = toUtf8 s') : s = s' :=
  String.toByteArray_inj.mp (ByteArray.ext (Array.toList_inj.mp h))

@[simp] theorem ofUtf8_toUtf8 (s : String) : ofUtf8 (toUtf8 s) = some s := by
  rw [ofUtf8]
  split
  · rename_i h
    refine congrArg some (toUtf8_inj ?_)
    rw [toUtf8_ofList, List.flatMap_map]
    calc (toUtf8 s).flatMap (fun b ↦ String.utf8EncodeChar (asciiChar b))
        = (toUtf8 s).flatMap fun b ↦ [b] :=
          List.flatMap_congr fun b hb ↦
            utf8EncodeChar_asciiChar (of_decide_eq_true (List.all_eq_true.mp h b hb))
      _ = toUtf8 s := List.flatMap_singleton' _
  · have hb : (⟨(toUtf8 s).toArray⟩ : ByteArray) = s.toByteArray := rfl
    rw [hb, String.fromUTF8?, dif_pos s.isValidUTF8]
    rfl

/-! ## Strings -/

def quote : UInt8 := 0x22

def backslash : UInt8 := 0x5c

def hexByte (n : ℕ) : UInt8 := .ofNat n.digitChar.toNat

/-- The bytes that have an escape of one letter, with the letter. -/
def shortEscapes : List (UInt8 × UInt8) :=
  [(quote, quote), (backslash, backslash), (0x08, 0x62), (0x09, 0x74), (0x0a, 0x6e), (0x0c, 0x66),
    (0x0d, 0x72)]

/-- The beginning of an escape of a control character, behind its backslash. -/
def longEscape : Text := [0x75, 0x30, 0x30]

/-- A byte inside a string: the quote, the backslash and the control characters are escaped. -/
def escape (b : UInt8) : Text :=
  match shortEscapes.lookup b with
  | some e => [backslash, e]
  | none =>
    if b < 32 then backslash :: (longEscape ++ [hexByte (b.toNat / 16), hexByte (b.toNat % 16)])
    else [b]

/-- The text behind a fixed beginning. -/
def after (lit t : Text) : Option Text :=
  if lit.isPrefixOf t then some (t.drop lit.length) else none

@[simp] theorem after_append (lit t : Text) : after lit (lit ++ t) = some t := by
  rw [after, if_pos (List.isPrefixOf_iff_prefix.mpr (List.prefix_append lit t)), List.drop_left]

def hexValue (b : UInt8) : Option ℕ := (List.range 16).find? fun n ↦ hexByte n = b

/-- The byte of an escape of one letter. -/
def unescape (e : UInt8) : Option UInt8 := (shortEscapes.find? fun p ↦ p.2 = e).map Prod.fst

/-- The byte behind a backslash, and what follows it. -/
def escaped (t : Text) : Option (UInt8 × Text) :=
  match after longEscape t with
  | some (a :: b :: t) => do return (.ofNat ((← hexValue a) * 16 + (← hexValue b)), t)
  | some _ => none
  | none => do return (← unescape (← t.head?), t.tail)

/-- The bytes of a string up to its closing quote. The fuel bounds their number. -/
def chars : ℕ → Text → Option (Text × Text)
  | fuel + 1, c :: t =>
    if c = quote then some ([], t)
    else if c = backslash then do
      let (b, t) ← escaped t
      let (l, t) ← chars fuel t
      return (b :: l, t)
    else do
      let (l, t) ← chars fuel t
      return (c :: l, t)
  | _, _ => none

def ofString (s : String) : Text := quote :: ((toUtf8 s).flatMap escape ++ [quote])

/-- A string at the front of a text. -/
def string (t : Text) : Option (String × Text) := do
  let t ← after [quote] t
  let (l, t) ← chars t.length t
  return (← ofUtf8 l, t)

private theorem hexValue_hexByte {n : ℕ} (h : n < 16) : hexValue (hexByte n) = some n := by
  have hall : ∀ n, n < 16 → hexValue (hexByte n) = some n := by decide
  exact hall n h

private theorem escaped_short {e b : UInt8} (h : unescape e = some b) (he : e ≠ 0x75) (t : Text) :
    escaped (e :: t) = some (b, t) := by
  have hafter : after longEscape (e :: t) = none := by
    rw [after, if_neg]
    simp [longEscape, List.isPrefixOf, he.symm]
  rw [escaped, hafter]
  dsimp only
  rw [List.head?_cons, Option.bind_eq_bind, Option.bind_some, h]
  rfl

private theorem escaped_long {b : UInt8} (h : b < 32) (t : Text) :
    escaped (longEscape ++ ([hexByte (b.toNat / 16), hexByte (b.toNat % 16)] ++ t))
      = some (b, t) := by
  have hlt : b.toNat < 32 := h
  rw [escaped, after_append]
  dsimp only [List.cons_append, List.nil_append]
  rw [hexValue_hexByte (by omega), hexValue_hexByte (by omega), Option.bind_eq_bind,
    Option.bind_some, Option.bind_some, Nat.div_add_mod', UInt8.ofNat_toNat]
  rfl

private theorem chars_escape (b : UInt8) (fuel : ℕ) (t : Text) :
    chars (fuel + 1) (escape b ++ t) = (chars fuel t).map fun r ↦ (b :: r.1, r.2) := by
  have hq : backslash ≠ quote := by decide
  by_cases hs : b ∈ shortEscapes.map Prod.fst
  · have hshort : shortEscapes.all (fun p ↦ decide (escape p.1 = [backslash, p.2] ∧
        unescape p.2 = some p.1 ∧ p.2 ≠ 0x75)) = true := by decide
    obtain ⟨p, hp, rfl⟩ := List.mem_map.mp hs
    obtain ⟨he, hu, hne⟩ := of_decide_eq_true (List.all_eq_true.mp hshort p hp)
    rw [he, List.cons_append, List.cons_append, List.nil_append, chars, if_neg hq, if_pos rfl,
      escaped_short hu hne, Option.bind_eq_bind, Option.bind_some]
    dsimp only
    cases chars fuel t <;> rfl
  · have hnone : shortEscapes.lookup b = none := by
      rw [List.lookup_eq_none_iff]
      intro p hp
      rw [bne_iff_ne]
      rintro rfl
      exact hs (List.mem_map_of_mem hp)
    rw [escape, hnone]
    dsimp only
    split
    · rename_i h
      rw [List.cons_append, chars, if_neg hq, if_pos rfl, List.append_assoc, escaped_long h,
        Option.bind_eq_bind, Option.bind_some]
      dsimp only
      cases chars fuel t <;> rfl
    · have hbq : b ≠ quote := fun h ↦ hs (by rw [h]; decide)
      have hbb : b ≠ backslash := fun h ↦ hs (by rw [h]; decide)
      rw [List.cons_append, List.nil_append, chars, if_neg hbq, if_neg hbb]
      cases chars fuel t <;> rfl

private theorem length_escape_pos (b : UInt8) : 1 ≤ (escape b).length := by
  rw [escape]
  split
  · exact Nat.le_add_left _ _
  · split <;> exact Nat.le_add_left _ _

private theorem length_le_escapes (bs : Text) : bs.length ≤ (bs.flatMap escape).length := by
  induction bs with
  | nil => exact Nat.le_refl 0
  | cons b bs ih =>
    have hb := length_escape_pos b
    rw [List.flatMap_cons, List.length_append, List.length_cons]
    omega

private theorem chars_escapes (bs t : Text) {fuel : ℕ} (hf : bs.length < fuel) :
    chars fuel (bs.flatMap escape ++ quote :: t) = some (bs, t) := by
  induction bs generalizing fuel with
  | nil =>
    obtain ⟨fuel, rfl⟩ := Nat.exists_eq_succ_of_ne_zero (Nat.ne_of_gt hf)
    rw [List.flatMap_nil, List.nil_append, chars, if_pos rfl]
  | cons b bs ih =>
    obtain ⟨fuel, rfl⟩ := Nat.exists_eq_succ_of_ne_zero (Nat.ne_of_gt (Nat.zero_lt_of_lt hf))
    rw [List.flatMap_cons, List.append_assoc, chars_escape, ih (Nat.lt_of_succ_lt_succ hf),
      Option.map_some]

@[simp] theorem string_ofString (s : String) (t : Text) :
    string (ofString s ++ t) = some (s, t) := by
  have hlen : (toUtf8 s).length < ((toUtf8 s).flatMap escape ++ quote :: t).length := by
    have h := length_le_escapes (toUtf8 s)
    rw [List.length_append, List.length_cons]
    omega
  have hafter : after [quote] (ofString s ++ t)
      = some ((toUtf8 s).flatMap escape ++ quote :: t) := by
    rw [ofString, List.cons_append, List.append_assoc, List.singleton_append]
    exact after_append [quote] _
  rw [string, hafter, Option.bind_eq_bind, Option.bind_some, chars_escapes _ _ hlen,
    Option.bind_eq_bind, Option.bind_some]
  dsimp only
  rw [ofUtf8_toUtf8]
  rfl

/-! ## Lists of strings -/

def comma : UInt8 := 0x2c

def openBracket : UInt8 := 0x5b

def closeBracket : UInt8 := 0x5d

/-- The items of a list, each with what follows it. -/
def ofItems : List String → Text
  | [] => [closeBracket]
  | [s] => ofString s ++ [closeBracket]
  | s :: l => ofString s ++ comma :: ofItems l

def ofStrings (l : List String) : Text := openBracket :: ofItems l

/-- The items at the front of a text, at most as many as the fuel. -/
def items : ℕ → Text → Option (List String × Text)
  | 0, _ => none
  | fuel + 1, t => do
    let (s, t) ← string t
    match after [comma] t with
    | some t =>
      let (l, t) ← items fuel t
      return (s :: l, t)
    | none =>
      let t ← after [closeBracket] t
      return ([s], t)

/-- A list at the front of a text. -/
def strings (t : Text) : Option (List String × Text) := do
  let t ← after [openBracket] t
  match after [closeBracket] t with
  | some t => return ([], t)
  | none => items t.length t

theorem after_singleton (b c : UInt8) (t : Text) :
    after [b] (c :: t) = if b = c then some t else none := by
  rw [after, List.isPrefixOf_cons_cons, List.isPrefixOf_nil_left, Bool.and_true]
  by_cases h : b = c
  · rw [if_pos h, if_pos (beq_iff_eq.mpr h)]
    rfl
  · rw [if_neg h, if_neg (by simpa using h)]

private theorem items_ofItems {l : List String} (h : l ≠ []) {fuel : ℕ} (hf : l.length ≤ fuel)
    (t : Text) :
    items fuel (ofItems l ++ t) = some (l, t) := by
  induction l generalizing fuel with
  | nil => exact absurd rfl h
  | cons s l ih =>
    obtain ⟨fuel, rfl⟩ := Nat.exists_eq_succ_of_ne_zero
      (Nat.ne_of_gt (Nat.lt_of_lt_of_le (Nat.succ_pos _) hf))
    cases l with
    | nil =>
      rw [ofItems, List.append_assoc, items, string_ofString, Option.bind_eq_bind, Option.bind_some,
        List.singleton_append]
      dsimp only
      rw [after_singleton, if_neg (by decide), after_singleton, if_pos rfl]
      rfl
    | cons s' l =>
      rw [ofItems, List.append_assoc, items, string_ofString, Option.bind_eq_bind, Option.bind_some,
        List.cons_append]
      · dsimp only
        rw [after_singleton, if_pos rfl]
        dsimp only
        rw [ih (List.cons_ne_nil _ _) (Nat.le_of_succ_le_succ hf)]
        rfl
      · exact List.cons_ne_nil s' l

private theorem length_le_ofItems (l : List String) : l.length ≤ (ofItems l).length := by
  induction l with
  | nil => exact Nat.zero_le _
  | cons s l ih =>
    cases l with
    | nil =>
      rw [ofItems, List.length_append, List.length_singleton]
      exact Nat.le_add_left _ _
    | cons s' l =>
      have hitems : ofItems (s :: s' :: l) = ofString s ++ comma :: ofItems (s' :: l) := by
        rw [ofItems]
        exact List.cons_ne_nil s' l
      rw [hitems, List.length_append]
      exact Nat.le_add_left_of_le (Nat.succ_le_succ ih)

@[simp] theorem strings_ofStrings (l : List String) (t : Text) :
    strings (ofStrings l ++ t) = some (l, t) := by
  rw [strings, ofStrings, List.cons_append, after_singleton, if_pos rfl, Option.bind_eq_bind,
    Option.bind_some]
  cases l with
  | nil => rfl
  | cons s l =>
    have hhead : ∃ u, ofItems (s :: l) ++ t = quote :: u := by
      cases l <;> exact ⟨_, rfl⟩
    have hnone : after [closeBracket] (ofItems (s :: l) ++ t) = none := by
      obtain ⟨u, hu⟩ := hhead
      rw [hu, after_singleton, if_neg (by decide)]
    rw [hnone]
    refine items_ofItems (List.cons_ne_nil s l) ?_ t
    rw [List.length_append]
    exact Nat.le_trans (length_le_ofItems (s :: l)) (Nat.le_add_right _ _)

/-! ## Numbers -/

def charByte (c : Char) : UInt8 := .ofNat c.toNat

def ofNat (n : ℕ) : Text := (Nat.toDigits 10 n).map charByte

def isDigit (b : UInt8) : Bool := (asciiChar b).isDigit

/-- The digits at the front of a text, as a number. -/
def nat (t : Text) : ℕ × Text :=
  (Nat.ofDigitChars 10 ((t.takeWhile isDigit).map asciiChar) 0, t.dropWhile isDigit)

private theorem asciiChar_charByte {c : Char} (h : c.isDigit = true) :
    asciiChar (charByte c) = c := by
  have hc : c.toNat ≤ 57 := (Char.isDigit_iff_toNat.mp h).2
  rw [asciiChar, charByte, UInt8.toNat_ofNat_of_lt' (Nat.lt_of_le_of_lt hc (by decide)),
    Char.ofNat_toNat]

/-- A number reads back when no digit follows. -/
theorem nat_ofNat (n : ℕ) {b : UInt8} (hb : isDigit b = false) (t : Text) :
    nat (ofNat n ++ b :: t) = (n, b :: t) := by
  have hdigit : ∀ c ∈ Nat.toDigits 10 n, c.isDigit = true := fun c hc ↦
    Nat.isDigit_of_mem_toDigits (by decide) (by decide) hc
  have hd : ∀ d ∈ ofNat n, isDigit d = true := by
    intro d hd
    obtain ⟨c, hc, rfl⟩ := List.mem_map.mp hd
    rw [isDigit, asciiChar_charByte (hdigit c hc)]
    exact hdigit c hc
  have hback : (ofNat n).map asciiChar = Nat.toDigits 10 n := by
    rw [ofNat, List.map_map]
    exact (List.map_congr_left fun c hc ↦ asciiChar_charByte (hdigit c hc)).trans (List.map_id _)
  rw [nat, List.takeWhile_append_of_pos hd, List.dropWhile_append_of_pos hd,
    List.takeWhile_cons_of_neg (by rw [hb]; decide),
    List.dropWhile_cons_of_neg (by rw [hb]; decide),
    List.append_nil, hback, Nat.ofDigitChars_ten_toDigits]

/-! ## Objects -/

def openBrace : UInt8 := 0x7b

def closeBrace : UInt8 := 0x7d

def colon : UInt8 := 0x3a

/-- The name of a field, up to its value. -/
def key (name : String) : Text := ofString name ++ [colon]

end Json
