import FrontEnd.Text
import Mathlib.Data.Rat.Defs
import Mathlib.Data.List.Nodup
import Mathlib.Data.List.Forall2

/-!
# JSON texts

* `Json` : the values that JSON texts stand for, with strings as bytes; a member of an object may occur several times;
* `Json.Number`, `Json.Contents` : numerals with their values, and what may stand between the quotes of a string with
  what it stands for;
* `Json.Padded` : the texts of values with blanks around them; a whole text is one of these;
* `Json.Distinct` : values in which no object has a member twice;
* `Json.even_quotes` : a text without backslashes holds an even number of quotes.
-/

namespace FrontEnd

/-- What a JSON text stands for. -/
inductive Json where
  | null
  | bool (value : Bool)
  | number (value : ℚ)
  | string (value : Text)
  | array (elements : List Json)
  | object (members : List (Text × Json))

namespace Json

/-! ## Grammar -/

/-- Blanks between the parts of a text. -/
def Blank (t : Text) : Prop := ∀ c ∈ t, c ∈ [' ', '\t', '\n', '\r']

/-- The digits in front of a fraction, which do not start with a zero that could be left out. -/
def Whole (digits : Text) : Prop :=
  digits = ['0'] ∨ digits ≠ [] ∧ (∀ d ∈ digits, d.isDigit) ∧ digits.head? ≠ some '0'

/-- The part of a numeral from the point on, with its value. -/
inductive Fraction : Text → ℚ → Prop
  | none : Fraction [] 0
  | some {digits : Text} (hne : digits ≠ []) (hdigits : ∀ d ∈ digits, d.isDigit) :
    Fraction ('.' :: digits) (Text.digitsValue digits / 10 ^ digits.length)

/-- The part of a numeral from the letter on, with the power of ten that it stands for. -/
inductive Exponent : Text → ℤ → Prop
  | none : Exponent [] 0
  | plain {e : Char} {digits : Text} (he : e = 'e' ∨ e = 'E') (hne : digits ≠ []) (hdigits : ∀ d ∈ digits, d.isDigit) :
    Exponent (e :: digits) (Text.digitsValue digits)
  | plus {e : Char} {digits : Text} (he : e = 'e' ∨ e = 'E') (hne : digits ≠ []) (hdigits : ∀ d ∈ digits, d.isDigit) :
    Exponent (e :: '+' :: digits) (Text.digitsValue digits)
  | minus {e : Char} {digits : Text} (he : e = 'e' ∨ e = 'E') (hne : digits ≠ []) (hdigits : ∀ d ∈ digits, d.isDigit) :
    Exponent (e :: '-' :: digits) (-Text.digitsValue digits)

/-- Numerals with their values. -/
inductive Number : Text → ℚ → Prop
  | positive {whole fraction exponent : Text} {x : ℚ} {n : ℤ} (hw : Whole whole) (hf : Fraction fraction x)
    (he : Exponent exponent n) :
    Number (whole ++ (fraction ++ exponent)) ((Text.digitsValue whole + x) * 10 ^ n)
  | negative {t : Text} {x : ℚ} (h : Number t x) (hsign : t.head? ≠ some '-') : Number ('-' :: t) (-x)

/-- What a character stands for behind a backslash. -/
def escaped? : Char → Option Char
  | '"' => some '"'
  | '\\' => some '\\'
  | '/' => some '/'
  | 'b' => some '\x08'
  | 'f' => some '\x0c'
  | 'n' => some '\n'
  | 'r' => some '\r'
  | 't' => some '\t'
  | _ => none

/-- The value of a hexadecimal digit. -/
def hexValue? (c : Char) : Option Nat :=
  if c.isDigit then some (c.toNat - '0'.toNat)
  else if 'a' ≤ c ∧ c ≤ 'f' then some (c.toNat - 'a'.toNat + 10)
  else if 'A' ≤ c ∧ c ≤ 'F' then some (c.toNat - 'A'.toNat + 10)
  else none

/-- The bytes of a unit of 16 bits, each half of a pair by itself. -/
def unitBytes (n : Nat) : Text :=
  if n < 128 then [Char.ofNat n]
  else if n < 2048 then [Char.ofNat (192 + n / 64), Char.ofNat (128 + n % 64)]
  else [Char.ofNat (224 + n / 4096), Char.ofNat (128 + n / 64 % 64), Char.ofNat (128 + n % 64)]

/-- Whether a byte stands for itself in a string: it is no control character, no quote and no backslash. -/
def IsPlain (c : Char) : Prop := 32 ≤ c.toNat ∧ c ≠ '"' ∧ c ≠ '\\'

instance : DecidablePred IsPlain := fun c => inferInstanceAs (Decidable (32 ≤ c.toNat ∧ c ≠ '"' ∧ c ≠ '\\'))

/-- What stands between the quotes of a string, and the bytes that it stands for. -/
inductive Contents : Text → Text → Prop
  | nil : Contents [] []
  | plain {c : Char} {raw t : Text} (hc : IsPlain c) (h : Contents raw t) : Contents (c :: raw) (c :: t)
  | escape {c d : Char} {raw t : Text} (hc : escaped? c = some d) (h : Contents raw t) :
    Contents ('\\' :: c :: raw) (d :: t)
  | unit {a b c d : Char} {i j k l : Nat} {raw t : Text} (ha : hexValue? a = some i) (hb : hexValue? b = some j)
    (hc : hexValue? c = some k) (hd : hexValue? d = some l) (h : Contents raw t) :
    Contents ('\\' :: 'u' :: a :: b :: c :: d :: raw) (unitBytes (((i * 16 + j) * 16 + k) * 16 + l) ++ t)

mutual

/-- The texts of values. -/
inductive Value : Text → Json → Prop
  | null : Value "null" .null
  | yes : Value "true" (.bool true)
  | no : Value "false" (.bool false)
  | number {t : Text} {x : ℚ} (h : Number t x) : Value t (.number x)
  | string {raw s : Text} (h : Contents raw s) : Value ('"' :: (raw ++ ['"'])) (.string s)
  | emptyArray {w : Text} (hw : Blank w) : Value ('[' :: (w ++ [']'])) (.array [])
  | array {t : Text} {vs : List Json} (h : Elements t vs) : Value ('[' :: (t ++ [']'])) (.array vs)
  | emptyObject {w : Text} (hw : Blank w) : Value ('{' :: (w ++ ['}'])) (.object [])
  | object {t : Text} {ms : List (Text × Json)} (h : Members t ms) : Value ('{' :: (t ++ ['}'])) (.object ms)

/-- The texts of values with blanks around them. -/
inductive Padded : Text → Json → Prop
  | mk {w t w' : Text} {v : Json} (hw : Blank w) (h : Value t v) (hw' : Blank w') : Padded (w ++ (t ++ w')) v

/-- Elements of an array, with commas between them. -/
inductive Elements : Text → List Json → Prop
  | one {t : Text} {v : Json} (h : Padded t v) : Elements t [v]
  | cons {t t' : Text} {v : Json} {vs : List Json} (h : Padded t v) (hs : Elements t' vs) :
    Elements (t ++ ',' :: t') (v :: vs)

/-- A member of an object. -/
inductive Member : Text → Text × Json → Prop
  | mk {w raw key w' t : Text} {v : Json} (hw : Blank w) (hkey : Contents raw key) (hw' : Blank w') (h : Padded t v) :
    Member (w ++ '"' :: (raw ++ '"' :: (w' ++ ':' :: t))) (key, v)

/-- Members of an object, with commas between them. -/
inductive Members : Text → List (Text × Json) → Prop
  | one {t : Text} {m : Text × Json} (h : Member t m) : Members t [m]
  | cons {t t' : Text} {m : Text × Json} {ms : List (Text × Json)} (h : Member t m) (hs : Members t' ms) :
    Members (t ++ ',' :: t') (m :: ms)

end

/-- No object has a member twice. -/
inductive Distinct : Json → Prop
  | null : Distinct .null
  | bool {b : Bool} : Distinct (.bool b)
  | number {x : ℚ} : Distinct (.number x)
  | string {s : Text} : Distinct (.string s)
  | array {vs : List Json} (h : ∀ v ∈ vs, Distinct v) : Distinct (.array vs)
  | object {ms : List (Text × Json)} (hnames : (ms.map Prod.fst).Nodup) (h : ∀ m ∈ ms, Distinct m.2) :
    Distinct (.object ms)

/-! ## Quotes -/

theorem Blank.quote_notMem {w : Text} (h : Blank w) : '"' ∉ w := fun hm => by
  have := h _ hm
  simp at this

theorem Whole.digits {t : Text} (h : Whole t) : ∀ c ∈ t, c.isDigit := by
  rcases h with rfl | ⟨-, hdigits, -⟩
  · simp
  · exact hdigits

theorem quote_notMem_digits {digits : Text} (h : ∀ d ∈ digits, d.isDigit) : '"' ∉ digits := fun hm => by
  have hquote : '"'.isDigit := h _ hm
  cases hquote

theorem Number.quote_notMem {t : Text} {x : ℚ} (h : Number t x) : '"' ∉ t := by
  induction h with
  | positive hw hf he =>
    have hwhole := quote_notMem_digits hw.digits
    have hfraction : ∀ {t x}, Fraction t x → '"' ∉ t := by
      rintro t x (_ | ⟨_, hdigits⟩)
      · simp
      · simp [quote_notMem_digits hdigits]
    have hexponent : ∀ {t n}, Exponent t n → '"' ∉ t := by
      rintro t n (_ | ⟨rfl | rfl, _, hdigits⟩ | ⟨rfl | rfl, _, hdigits⟩ | ⟨rfl | rfl, _, hdigits⟩)
      · simp
      all_goals simp [quote_notMem_digits hdigits]
    simp [hwhole, hfraction hf, hexponent he]
  | negative _ _ ih => simpa using ih

/-- A string has quotes inside only behind backslashes. -/
theorem Contents.quote_notMem {raw s : Text} (h : Contents raw s) (hb : '\\' ∉ raw) : '"' ∉ raw := by
  induction h with
  | nil => simp
  | plain hc _ ih =>
    have hrest := ih fun hm => hb (.tail _ hm)
    have hne := hc.2.1.symm
    simp [hne, hrest]
  | escape | unit => exact absurd List.mem_cons_self hb

mutual

theorem Value.even_quotes : {t : Text} → {v : Json} → Value t v → '\\' ∉ t → t.count '"' % 2 = 0
  | _, _, .null, _ | _, _, .yes, _ | _, _, .no, _ => rfl
  | _, _, .number h, _ => by rw [List.count_eq_zero_of_not_mem h.quote_notMem]
  | _, _, .string h, hb => by
    have hraw := List.count_eq_zero_of_not_mem (h.quote_notMem fun hm => hb (by simp [hm]))
    simp [hraw]
  | _, _, .emptyArray hw, _ => by simp [List.count_eq_zero_of_not_mem hw.quote_notMem]
  | _, _, .emptyObject hw, _ => by simp [List.count_eq_zero_of_not_mem hw.quote_notMem]
  | _, _, .array h, hb => by simpa using h.even_quotes fun hm => hb (by simp [hm])
  | _, _, .object h, hb => by simpa using h.even_quotes fun hm => hb (by simp [hm])

/-- A text without backslashes holds an even number of quotes. -/
theorem Padded.even_quotes : {t : Text} → {v : Json} → Padded t v → '\\' ∉ t → t.count '"' % 2 = 0
  | _, _, .mk hw h hw', hb => by
    have hvalue := h.even_quotes fun hm => hb (by simp [hm])
    simpa [List.count_eq_zero_of_not_mem hw.quote_notMem, List.count_eq_zero_of_not_mem hw'.quote_notMem] using hvalue

theorem Elements.even_quotes : {t : Text} → {vs : List Json} → Elements t vs → '\\' ∉ t → t.count '"' % 2 = 0
  | _, _, .one h, hb => h.even_quotes hb
  | _, _, .cons h hs, hb => by
    have hfirst := h.even_quotes fun hm => hb (by simp [hm])
    have hrest := hs.even_quotes fun hm => hb (by simp [hm])
    simp only [List.count_append, List.count_cons_of_ne (show ',' ≠ '"' by decide)]
    omega

theorem Member.even_quotes : {t : Text} → {m : Text × Json} → Member t m → '\\' ∉ t → t.count '"' % 2 = 0
  | _, _, .mk hw hkey hw' h, hb => by
    have hvalue := h.even_quotes fun hm => hb (by simp [hm])
    have hraw := List.count_eq_zero_of_not_mem (hkey.quote_notMem fun hm => hb (by simp [hm]))
    simp only [List.count_append, List.count_cons_self, List.count_cons_of_ne (show ':' ≠ '"' by decide), hraw,
      List.count_eq_zero_of_not_mem hw.quote_notMem, List.count_eq_zero_of_not_mem hw'.quote_notMem]
    omega

theorem Members.even_quotes : {t : Text} → {ms : List (Text × Json)} → Members t ms → '\\' ∉ t →
    t.count '"' % 2 = 0
  | _, _, .one h, hb => h.even_quotes hb
  | _, _, .cons h hs, hb => by
    have hfirst := h.even_quotes fun hm => hb (by simp [hm])
    have hrest := hs.even_quotes fun hm => hb (by simp [hm])
    simp only [List.count_append, List.count_cons_of_ne (show ',' ≠ '"' by decide)]
    omega

end

/-! ## Texts put together -/

theorem whole_ofNat (n : Nat) : Whole (Text.ofNat n) := by
  induction n using Nat.strongRecOn with
  | ind n ih =>
    by_cases hlt : n < 10
    · have hall : ∀ n < 10, Text.ofNat n = ['0'] ∨ (Text.ofNat n).head? ≠ some '0' := by decide
      exact (hall n hlt).imp_right fun hhead => ⟨Nat.toDigits_ne_nil, fun d => Text.isDigit_of_mem_ofNat, hhead⟩
    · have hsplit : Text.ofNat n = Text.ofNat (n / 10) ++ [(n % 10).digitChar] :=
        Nat.toDigits_of_base_le (by decide) (Nat.not_lt.1 hlt)
      have hne : Text.ofNat (n / 10) ≠ [] := Nat.toDigits_ne_nil
      refine .inr ⟨Nat.toDigits_ne_nil, fun d hd => Text.isDigit_of_mem_ofNat hd, ?_⟩
      rw [hsplit, List.head?_append_of_ne_nil _ hne]
      rcases ih (n / 10) (by omega) with hzero | ⟨-, -, hhead⟩
      · have hvalue : Text.digitsValue (Text.ofNat (n / 10)) = 0 := by rw [hzero]; rfl
        rw [Text.digitsValue_ofNat] at hvalue
        omega
      · exact hhead

theorem number_ofNat (n : Nat) : Number (Text.ofNat n) n := by
  have h := Number.positive (whole_ofNat n) .none .none
  simpa [Text.digitsValue_ofNat] using h

theorem contents_of_plain {t : Text} (h : ∀ c ∈ t, IsPlain c) : Contents t t := by
  induction t with
  | nil => exact .nil
  | cons c t ih => exact .plain (h c List.mem_cons_self) (ih fun c hm => h c (.tail _ hm))

theorem Blank.append {w w' : Text} (h : Blank w) (h' : Blank w') : Blank (w ++ w') := fun c hm =>
  (List.mem_append.1 hm).elim (h c) (h' c)

theorem blank_nil : Blank [] := fun _ hm => by cases hm

theorem Value.padded {t : Text} {v : Json} (h : Value t v) : Padded t v := by
  simpa using Padded.mk blank_nil h blank_nil

theorem Padded.pad {w t : Text} {v : Json} (hw : Blank w) (h : Padded t v) : Padded (w ++ t) v := by
  cases h with
  | mk hw₁ h hw' => simpa using Padded.mk (hw.append hw₁) h hw'

theorem Padded.padBehind {w t : Text} {v : Json} (h : Padded t v) (hw : Blank w) : Padded (t ++ w) v := by
  cases h with
  | mk hw₁ h hw' => simpa using Padded.mk hw₁ h (hw'.append hw)

theorem Elements.pad {w t : Text} {vs : List Json} (hw : Blank w) (h : Elements t vs) : Elements (w ++ t) vs := by
  cases h with
  | one h => exact .one (h.pad hw)
  | cons h hs => simpa using Elements.cons (h.pad hw) hs

theorem Member.pad {w t : Text} {m : Text × Json} (hw : Blank w) (h : Member t m) : Member (w ++ t) m := by
  cases h with
  | mk hw₁ hkey hw' h => simpa using Member.mk (hw.append hw₁) hkey hw' h

theorem Member.padBehind {w t : Text} {m : Text × Json} (h : Member t m) (hw : Blank w) : Member (t ++ w) m := by
  cases h with
  | mk hw₁ hkey hw' h => simpa using Member.mk hw₁ hkey hw' (h.padBehind hw)

theorem Members.pad {w t : Text} {ms : List (Text × Json)} (hw : Blank w) (h : Members t ms) : Members (w ++ t) ms := by
  cases h with
  | one h => exact .one (h.pad hw)
  | cons h hs => simpa using Members.cons (h.pad hw) hs

theorem Members.padBehind : {t : Text} → {ms : List (Text × Json)} → Members t ms → {w : Text} → Blank w →
    Members (t ++ w) ms
  | _, _, .one h, _, hw => .one (h.padBehind hw)
  | _, _, .cons h hs, _, hw => by simpa using Members.cons h (hs.padBehind hw)

/-- Members are put together with commas and blanks between them. -/
theorem members_joined {sep : Text} (hsep : Blank sep) {pieces : List Text} {ms : List (Text × Json)}
    (h : List.Forall₂ Member pieces ms) (hne : ms ≠ []) : Members (Text.joined (',' :: sep) pieces) ms := by
  induction h with
  | nil => exact absurd rfl hne
  | @cons piece m pieces ms hfirst hrest ih =>
    cases hrest with
    | nil => exact Text.joined_singleton .. ▸ .one hfirst
    | cons =>
      rw [Text.joined_cons_cons]
      exact .cons hfirst ((ih (List.cons_ne_nil _ _)).pad hsep)

/-- Elements are put together with commas and blanks between them. -/
theorem elements_joined {sep : Text} (hsep : Blank sep) {pieces : List Text} {vs : List Json}
    (h : List.Forall₂ Padded pieces vs) (hne : vs ≠ []) : Elements (Text.joined (',' :: sep) pieces) vs := by
  induction h with
  | nil => exact absurd rfl hne
  | @cons piece v pieces vs hfirst hrest ih =>
    cases hrest with
    | nil => exact Text.joined_singleton .. ▸ .one hfirst
    | cons =>
      rw [Text.joined_cons_cons]
      exact .cons hfirst ((ih (List.cons_ne_nil _ _)).pad hsep)

end Json
end FrontEnd
