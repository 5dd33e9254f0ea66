import Mathlib.Data.List.Basic
import Mathlib.Data.List.TakeDrop
import Mathlib.Data.List.TakeWhile
import Mathlib.Data.List.DropRight

/-!
# Bytes and the lexical helpers of `syntax.rs`

Byte strings are lists. The helpers work on slices in the source; a slice
`&value[1..]` is a `drop` here and `&value[..n]` a `take`.
-/

namespace Vakya

abbrev Bytes := List UInt8

/-- The bytes of an ASCII literal such as `b"chunked"`. -/
def ascii (s : String) : Bytes := s.toList.map fun c => c.toNat.toUInt8

abbrev CR : UInt8 := 13
abbrev LF : UInt8 := 10
abbrev SP : UInt8 := 32
abbrev HTAB : UInt8 := 9
abbrev COLON : UInt8 := 58
abbrev COMMA : UInt8 := 44
abbrev SEMICOLON : UInt8 := 59
abbrev EQUALS : UInt8 := 61
abbrev DQUOTE : UInt8 := 34
abbrev BACKSLASH : UInt8 := 92
abbrev CRLF : Bytes := [CR, LF]

@[simp] theorem cr_ne_lf : CR ≠ LF := by decide
@[simp] theorem lf_ne_cr : LF ≠ CR := by decide

def isOws (b : UInt8) : Bool := b == SP || b == HTAB

def isAsciiDigit (b : UInt8) : Bool := 48 ≤ b && b ≤ 57

def isAsciiHexdigit (b : UInt8) : Bool :=
  isAsciiDigit b || (65 ≤ b && b ≤ 70) || (97 ≤ b && b ≤ 102)

def isAsciiAlphanumeric (b : UInt8) : Bool :=
  isAsciiDigit b || (65 ≤ b && b ≤ 90) || (97 ≤ b && b ≤ 122)

def toAsciiLowercase (b : UInt8) : UInt8 := if 65 ≤ b ∧ b ≤ 90 then b + 32 else b

def toAsciiUppercase (b : UInt8) : UInt8 := if 97 ≤ b ∧ b ≤ 122 then b - 32 else b

def lowercase (bs : Bytes) : Bytes := bs.map toAsciiLowercase

def eqIgnoreAsciiCase (a b : Bytes) : Bool := lowercase a == lowercase b

def isTchar (b : UInt8) : Bool :=
  isAsciiAlphanumeric b || (ascii "!#$%&'*+-.^_`|~").contains b

def trimEnd (value : Bytes) : Bytes := value.rdropWhile isOws

def trimOws (value : Bytes) : Bytes := trimEnd (value.dropWhile isOws)

def isToken (value : Bytes) : Bool := !value.isEmpty && value.all isTchar

/-- The scan of `quoted_string_len` after the opening quote; `index` is the
position of the next byte. -/
def quotedStringScan (escaped : Bool) (index : ℕ) : Bytes → Option ℕ
  | [] => none
  | b :: rest =>
    if escaped then
      if b = CR ∨ b = LF then none else quotedStringScan false (index + 1) rest
    else if b = BACKSLASH then quotedStringScan true (index + 1) rest
    else if b = DQUOTE then some (index + 1)
    else if b = CR ∨ b = LF ∨ b = 0x7f ∨ (b < 0x20 ∧ b ≠ HTAB) then none
    else quotedStringScan false (index + 1) rest

/-- The first byte is skipped, not checked: callers test it for a quote. -/
def quotedStringLen (input : Bytes) : Option ℕ := quotedStringScan false 1 input.tail

def utf8Tail (low high b : UInt8) : Bool := low ≤ b && b ≤ high

/-- Whether `std::str::from_utf8` accepts the bytes. -/
def isUtf8 : Bytes → Bool
  | [] => true
  | b :: rest =>
    if b < 0x80 then isUtf8 rest
    else if b < 0xC2 then false
    else if b < 0xE0 then
      match rest with
      | c :: rest => utf8Tail 0x80 0xBF c && isUtf8 rest
      | _ => false
    else if b < 0xF0 then
      match rest with
      | c :: d :: rest =>
        utf8Tail (if b = 0xE0 then 0xA0 else 0x80) (if b = 0xED then 0x9F else 0xBF) c &&
          utf8Tail 0x80 0xBF d && isUtf8 rest
      | _ => false
    else if b < 0xF5 then
      match rest with
      | c :: d :: e :: rest =>
        utf8Tail (if b = 0xF0 then 0x90 else 0x80) (if b = 0xF4 then 0x8F else 0xBF) c &&
          utf8Tail 0x80 0xBF d && utf8Tail 0x80 0xBF e && isUtf8 rest
      | _ => false
    else false

theorem length_trimEnd_le (value : Bytes) : (trimEnd value).length ≤ value.length :=
  (List.rdropWhile_prefix isOws value).length_le

theorem length_trimOws_le (value : Bytes) : (trimOws value).length ≤ value.length :=
  (length_trimEnd_le _).trans (List.length_dropWhile_le isOws value)

theorem trimEnd_of_last {value : Bytes} (h : ∀ b ∈ value.getLast?, isOws b = false) :
    trimEnd value = value := by
  refine List.rdropWhile_eq_self_iff.mpr fun hne => ?_
  simpa using h _ (List.getLast?_eq_some_getLast hne)

theorem trimOws_of_ends {value : Bytes} (h : ∀ b ∈ value.head?, isOws b = false)
    (h' : ∀ b ∈ value.getLast?, isOws b = false) : trimOws value = value := by
  have hd : value.dropWhile isOws = value := by
    cases value with
    | nil => rfl
    | cons b bs => exact List.dropWhile_cons_of_neg (by simp [h b (by simp)])
  rw [trimOws, hd, trimEnd_of_last h']

@[simp] theorem trimOws_sp_cons (value : Bytes) : trimOws (SP :: value) = trimOws value := rfl

theorem mem_of_mem_trimOws {value : Bytes} {b : UInt8} (h : b ∈ trimOws value) : b ∈ value :=
  (List.dropWhile_suffix isOws).subset ((List.rdropWhile_prefix isOws _).subset h)

theorem toAsciiLowercase_idem (b : UInt8) :
    toAsciiLowercase (toAsciiLowercase b) = toAsciiLowercase b := by
  unfold toAsciiLowercase
  split_ifs <;> grind

theorem lowercase_idem (bs : Bytes) : lowercase (lowercase bs) = lowercase bs := by
  simp [lowercase, toAsciiLowercase_idem]

theorem toAsciiLowercase_toAsciiUppercase (b : UInt8) :
    toAsciiLowercase (toAsciiUppercase b) = toAsciiLowercase b := by
  unfold toAsciiLowercase toAsciiUppercase
  split_ifs <;> grind

theorem isTchar_toAsciiLowercase (b : UInt8) : isTchar (toAsciiLowercase b) = isTchar b := by
  unfold toAsciiLowercase
  split_ifs with h
  · have h1 : isAsciiAlphanumeric b = true := by
      unfold isAsciiAlphanumeric
      simp [h.1, h.2]
    have h2 : isAsciiAlphanumeric (b + 32) = true := by
      unfold isAsciiAlphanumeric
      have : 97 ≤ b + 32 ∧ b + 32 ≤ 122 := by grind
      simp [this.1, this.2]
    simp [isTchar, h1, h2]
  · rfl

theorem isToken_of_lowercase {text : Bytes} (h : isToken (lowercase text) = true) :
    isToken text = true := by
  simpa [isToken, lowercase, isTchar_toAsciiLowercase, Function.comp_def] using h

def ensure {E : Type} (c : Prop) [Decidable c] (error : E) : Except E Unit :=
  if c then .ok () else .error error

theorem ensure_eq_ok {E : Type} {c : Prop} [Decidable c] {error : E} {u : Unit} :
    ensure c error = .ok u ↔ c := by
  unfold ensure
  split_ifs with h <;> simp [h]

theorem ok_bind {E A B : Type} (a : A) (f : A → Except E B) : (Except.ok a >>= f) = f a := rfl

theorem bind_eq_ok_iff {E A B : Type} {r : Except E A} {f : A → Except E B} {b : B} :
    (r >>= f) = .ok b ↔ ∃ a, r = .ok a ∧ f a = .ok b := by
  cases r <;> simp [Bind.bind, Except.bind]

theorem bind_eq_ok {E A B : Type} {r : Except E A} {f : A → Except E B} {b : B}
    (h : (r >>= f) = .ok b) : ∃ a, r = .ok a ∧ f a = .ok b := bind_eq_ok_iff.mp h

end Vakya
