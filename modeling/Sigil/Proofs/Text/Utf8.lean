import Mathlib.Data.List.Forall2
import Sigil.Text.Utf8

/-!
# Texts as bytes

Bytes are decoded to a text exactly if they are the encoding of it, character by character
(`decode_eq_ok_iff`), so exactly if they are valid (`exists_decode_iff`). What carries this is that
a first byte and the bytes due after it go together (`Form`): the bytes of a character have the form
that their first byte says (`exists_form`), and bytes of that form are those of the character whose
code they make (`encode_of_form`).
-/

namespace Sigil.Text.Utf8

variable {pos start value n : Nat} {lead b : UInt8} {next : Bounds} {later bounds : List Bounds}
  {before cs : List Char} {bs bytes : List UInt8}

/-! ## 1. Bytes that are due -/

/-- A byte lies between these bounds. -/
def Within (bounds : Bounds) (b : UInt8) : Prop := bounds.1 ≤ b.toNat ∧ b.toNat ≤ bounds.2

/-- The code that the share of a first byte and the bytes after it make. -/
def code (value : Nat) (bs : List UInt8) : Nat :=
  bs.foldl (fun value b => 0x40 * value + (b.toNat - 0x80)) value

theorem code_nil (value : Nat) : code value [] = value := List.foldl_nil

theorem code_cons (value : Nat) (b : UInt8) (bs : List UInt8) :
    code value (b :: bs) = code (0x40 * value + (b.toNat - 0x80)) bs :=
  List.foldl_cons

/-- A byte that is due is taken in. -/
theorem decodeFrom_pending (h : Within next b) :
    decodeFrom pos (some ⟨start, lead, value, next, later⟩) before (b :: bytes) =
      match later with
      | [] =>
        decodeFrom (pos + 1) none (Char.ofNat (0x40 * value + (b.toNat - 0x80)) :: before) bytes
      | due :: later =>
        decodeFrom (pos + 1)
          (some ⟨start, lead, 0x40 * value + (b.toNat - 0x80), due, later⟩) before
          bytes := by
  have hwithin : (next.1 ≤ b.toNat && b.toNat ≤ next.2) = true := by
    rw [Bool.and_eq_true, decide_eq_true_iff, decide_eq_true_iff]
    exact h
  rw [decodeFrom]
  exact if_pos hwithin

/-- All the bytes that are due make a character. -/
theorem decodeFrom_due (h : List.Forall₂ Within (next :: later) bs) :
    decodeFrom pos (some ⟨start, lead, value, next, later⟩) before (bs ++ bytes) =
      decodeFrom (pos + bs.length) none (Char.ofNat (code value bs) :: before) bytes := by
  induction later generalizing pos value next bs with
  | nil =>
    obtain ⟨b, rest, hb, hrest, rfl⟩ := List.forall₂_cons_left_iff.mp h
    cases hrest
    exact decodeFrom_pending hb
  | cons due later ih =>
    obtain ⟨b, rest, hb, hrest, rfl⟩ := List.forall₂_cons_left_iff.mp h
    rw [List.cons_append, decodeFrom_pending hb]
    dsimp only
    rw [ih hrest, code_cons, List.length_cons, Nat.add_assoc, Nat.add_comm 1]

/-- Where bytes are due, a text goes on with them. -/
theorem exists_due
    (h : decodeFrom pos (some ⟨start, lead, value, next, later⟩) before bytes = .ok cs) :
    ∃ bs rest, bytes = bs ++ rest ∧ List.Forall₂ Within (next :: later) bs := by
  -- on the bytes that are due: each lies in its bounds, or the reader has stopped there
  induction later generalizing pos value next bytes with
  | nil =>
    cases bytes with
    | nil => cases h
    | cons b bytes =>
      by_cases hb : Within next b
      · exact ⟨[b], bytes, rfl, .cons hb .nil⟩
      · rw [decodeFrom, if_neg (by simpa [Within] using hb)] at h
        cases h
  | cons due later ih =>
    cases bytes with
    | nil => cases h
    | cons b bytes =>
      by_cases hb : Within next b
      · rw [decodeFrom_pending hb] at h
        obtain ⟨bs, rest, rfl, hbs⟩ := ih h
        exact ⟨b :: bs, rest, rfl, .cons hb hbs⟩
      · rw [decodeFrom, if_neg (by simpa [Within] using hb)] at h
        cases h

/-! ## 2. Forms -/

/-- The bounds of the second byte of three, by the share of the first. -/
def secondOfThree (value : Nat) : Bounds :=
  (if value = 0 then 0xA0 else 0x80, if value = 0xD then 0x9F else 0xBF)

/-- The bounds of the second byte of four, by the share of the first. -/
def secondOfFour (value : Nat) : Bounds :=
  (if value = 0 then 0x90 else 0x80, if value = 4 then 0x8F else 0xBF)

theorem within_usual_iff : Within usual b ↔ 0x80 ≤ b.toNat ∧ b.toNat ≤ 0xBF := Iff.rfl

theorem within_secondOfThree_iff : Within (secondOfThree value) b ↔
    (0x80 ≤ b.toNat ∧ b.toNat ≤ 0xBF) ∧ (value = 0 → 0xA0 ≤ b.toNat) ∧
      (value = 0xD → b.toNat ≤ 0x9F) := by
  unfold Within secondOfThree
  dsimp only
  split <;> split <;> omega

theorem within_secondOfFour_iff : Within (secondOfFour value) b ↔
    (0x80 ≤ b.toNat ∧ b.toNat ≤ 0xBF) ∧ (value = 0 → 0x90 ≤ b.toNat) ∧
      (value = 4 → b.toNat ≤ 0x8F) := by
  unfold Within secondOfFour
  dsimp only
  split <;> split <;> omega

/-- A first byte, its share of the character, and the bounds of the bytes that follow. -/
inductive Form : Nat → Nat → List Bounds → Prop
  | one {value : Nat} (h : value < 0x80) : Form value value []
  /-- Below the least share there is a shorter form. -/
  | two {value : Nat} (least : 2 ≤ value) (h : value < 0x20) : Form (value + 0xC0) value [usual]
  | three {value : Nat} (h : value < 0x10) : Form (value + 0xE0) value [secondOfThree value, usual]
  | four {value : Nat} (h : value < 5) :
    Form (value + 0xF0) value [secondOfFour value, usual, usual]

theorem Form.eq {first : Nat} (h : Form first value bounds) :
    form? first = some (value, bounds) := by
  unfold form?
  -- the bounds of the second byte are narrower for the first and last lead of each form
  cases h with
  | one h => rw [if_pos h]
  | two least h => rw [if_neg (by omega), if_neg (by omega), if_pos (by omega), Nat.add_sub_cancel]
  | three h =>
    have hfirst : value + 0xE0 = 0xE0 ↔ value = 0 := by omega
    have hlast : value + 0xE0 = 0xED ↔ value = 0xD := by omega
    rw [if_neg (by omega), if_neg (by omega), if_neg (by omega), if_pos (by omega),
      Nat.add_sub_cancel]
    simp only [hfirst, hlast, secondOfThree]
  | four h =>
    have hfirst : value + 0xF0 = 0xF0 ↔ value = 0 := by omega
    have hlast : value + 0xF0 = 0xF4 ↔ value = 4 := by omega
    rw [if_neg (by omega), if_neg (by omega), if_neg (by omega), if_neg (by omega),
      if_pos (by omega), Nat.add_sub_cancel]
    simp only [hfirst, hlast, secondOfFour]

/-- A byte starts a form or no character at all. -/
theorem exists_form_or_none (first : Nat) :
    (∃ value bounds, Form first value bounds) ∨ form? first = none := by
  -- the leads lie in four ranges, with a gap after the first and one after the last
  rcases Nat.lt_or_ge first 0x80 with hone | hone
  · exact .inl ⟨_, _, .one hone⟩
  rcases Nat.lt_or_ge first 0xC2 with hnone | hnone
  · exact .inr (by rw [form?, if_neg (by omega), if_pos hnone])
  rcases Nat.lt_or_ge first 0xE0 with htwo | htwo
  · obtain ⟨value, rfl⟩ := Nat.exists_eq_add_of_le' (show 0xC0 ≤ first by omega)
    exact .inl ⟨_, _, .two (by omega) (by omega)⟩
  rcases Nat.lt_or_ge first 0xF0 with hthree | hthree
  · obtain ⟨value, rfl⟩ := Nat.exists_eq_add_of_le' htwo
    exact .inl ⟨_, _, .three (by omega)⟩
  rcases Nat.lt_or_ge first 0xF5 with hfour | hfour
  · obtain ⟨value, rfl⟩ := Nat.exists_eq_add_of_le' hthree
    exact .inl ⟨_, _, .four (by omega)⟩
  · refine .inr ?_
    rw [form?, if_neg (by omega), if_neg (by omega), if_neg (by omega), if_neg (by omega),
      if_neg (by omega)]

theorem form?_eq_some_iff {first : Nat} : form? first = some (value, bounds) ↔
    Form first value bounds := by
  refine ⟨fun h => ?_, Form.eq⟩
  rcases exists_form_or_none first with ⟨value', bounds', hform⟩ | hnone
  · rw [hform.eq] at h
    cases h
    exact hform
  · rw [hnone] at h
    cases h

/-! ## 3. Characters -/

theorem toNat_byte (h : n < 0x100) : (UInt8.ofNat n).toNat = n := by
  rw [UInt8.toNat_ofNat', Nat.mod_eq_of_lt h]

theorem byte_eq (h : n = b.toNat) : UInt8.ofNat n = b := by
  rw [h, UInt8.ofNat_toNat]

/-- The byte with the last six bits of a code. -/
theorem within_usual (n : Nat) : Within usual (UInt8.ofNat (n % 0x40 + 0x80)) := by
  rw [within_usual_iff, toNat_byte (by omega)]
  omega

theorem code_lastBits (h : n / 0x40 = value) (bs : List UInt8) :
    code value (UInt8.ofNat (n % 0x40 + 0x80) :: bs) = code n bs := by
  have hn : 0x40 * value + (n % 0x40 + 0x80 - 0x80) = n := by omega
  rw [code_cons, toNat_byte (by omega), hn]

/-- The bytes of a character have the form that the first one says. -/
theorem exists_form (c : Char) :
    ∃ b value bounds bs, String.utf8EncodeChar c = b :: bs ∧ Form b.toNat value bounds ∧
      List.Forall₂ Within bounds bs ∧ code value bs = c.toNat := by
  -- a character is no surrogate, which is what the second byte of three has to avoid
  have hvalid : c.toNat < 0xD800 ∨ 0xDFFF < c.toNat ∧ c.toNat < 0x110000 := c.valid
  rw [String.utf8EncodeChar, Char.toNat_val]
  generalize c.toNat = n at hvalid
  split
  · refine ⟨_, n, [], [], rfl, ?_, .nil, code_nil n⟩
    rw [toNat_byte (by omega)]
    exact .one (by omega)
  split
  · have hshare : n / 0x40 % 0x20 = n / 0x40 := by omega
    rw [hshare]
    refine ⟨_, n / 0x40, [usual], _, rfl, ?_, .cons (within_usual n) .nil, ?_⟩
    · rw [toNat_byte (by omega)]
      exact .two (by omega) (by omega)
    · rw [code_lastBits rfl, code_nil]
  split
  · have hshare : n / 0x1000 % 0x10 = n / 0x1000 := by omega
    rw [hshare]
    refine ⟨_, n / 0x1000, [secondOfThree (n / 0x1000), usual], _, rfl, ?_,
      .cons ?_ (.cons (within_usual n) .nil), ?_⟩
    · rw [toNat_byte (by omega)]
      exact .three (by omega)
    · rw [within_secondOfThree_iff, toNat_byte (by omega)]
      omega
    · rw [code_lastBits (n := n / 0x40) (by omega), code_lastBits rfl, code_nil]
  · have hshare : n / 0x40000 % 0x08 = n / 0x40000 := by omega
    rw [hshare]
    refine ⟨_, n / 0x40000, [secondOfFour (n / 0x40000), usual, usual], _, rfl, ?_,
      .cons ?_ (.cons (within_usual _) (.cons (within_usual n) .nil)), ?_⟩
    · rw [toNat_byte (by omega)]
      exact .four (by omega)
    · rw [within_secondOfFour_iff, toNat_byte (by omega)]
      omega
    · rw [code_lastBits (n := n / 0x1000) (by omega), code_lastBits (n := n / 0x40) (by omega),
        code_lastBits rfl, code_nil]

theorem toNat_ofNat (h : n.isValidChar) : (Char.ofNat n).toNat = n := by
  rw [Char.ofNat, dif_pos h]
  rfl

/-- Bytes of the form that the first one says are those of the character whose code they make. -/
theorem encode_of_form (h : Form b.toNat value bounds) (hbs : List.Forall₂ Within bounds bs) :
    String.utf8EncodeChar (Char.ofNat (code value bs)) = b :: bs := by
  generalize hb : b.toNat = first at h
  cases h with
  | one h =>
    obtain rfl := List.forall₂_nil_left_iff.mp hbs
    rw [code_nil, String.utf8EncodeChar, Char.toNat_val, toNat_ofNat (.inl (by omega)),
      if_pos (by omega), byte_eq hb.symm]
  | two least h =>
    obtain ⟨b₁, _, h₁, hnil, rfl⟩ := List.forall₂_cons_left_iff.mp hbs
    obtain rfl := List.forall₂_nil_left_iff.mp hnil
    rw [within_usual_iff] at h₁
    rw [code_cons, code_nil]
    generalize hn : 0x40 * value + (b₁.toNat - 0x80) = n
    rw [String.utf8EncodeChar, Char.toNat_val, toNat_ofNat (.inl (by omega)), if_neg (by omega),
      if_pos (by omega), byte_eq (b := b) (by omega), byte_eq (b := b₁) (by omega)]
  | three h =>
    obtain ⟨b₁, _, h₁, hlater, rfl⟩ := List.forall₂_cons_left_iff.mp hbs
    obtain ⟨b₂, _, h₂, hnil, rfl⟩ := List.forall₂_cons_left_iff.mp hlater
    obtain rfl := List.forall₂_nil_left_iff.mp hnil
    rw [within_secondOfThree_iff] at h₁
    rw [within_usual_iff] at h₂
    rw [code_cons, code_cons, code_nil]
    generalize hn : 0x40 * (0x40 * value + (b₁.toNat - 0x80)) + (b₂.toNat - 0x80) = n
    have hvalid : n.isValidChar := by
      unfold Nat.isValidChar
      omega
    rw [String.utf8EncodeChar, Char.toNat_val, toNat_ofNat hvalid, if_neg (by omega),
      if_neg (by omega),
      if_pos (by omega), byte_eq (b := b) (by omega), byte_eq (b := b₁) (by omega),
      byte_eq (b := b₂) (by omega)]
  | four h =>
    obtain ⟨b₁, _, h₁, hlater, rfl⟩ := List.forall₂_cons_left_iff.mp hbs
    obtain ⟨b₂, _, h₂, hlast, rfl⟩ := List.forall₂_cons_left_iff.mp hlater
    obtain ⟨b₃, _, h₃, hnil, rfl⟩ := List.forall₂_cons_left_iff.mp hlast
    obtain rfl := List.forall₂_nil_left_iff.mp hnil
    rw [within_secondOfFour_iff] at h₁
    rw [within_usual_iff] at h₂ h₃
    rw [code_cons, code_cons, code_cons, code_nil]
    generalize hn :
      0x40 * (0x40 * (0x40 * value + (b₁.toNat - 0x80)) + (b₂.toNat - 0x80)) + (b₃.toNat - 0x80) = n
    have hvalid : n.isValidChar := by
      unfold Nat.isValidChar
      omega
    rw [String.utf8EncodeChar, Char.toNat_val, toNat_ofNat hvalid, if_neg (by omega),
      if_neg (by omega),
      if_neg (by omega), byte_eq (b := b) (by omega), byte_eq (b := b₁) (by omega),
      byte_eq (b := b₂) (by omega), byte_eq (b := b₃) (by omega)]

/-- A character is read from its bytes. -/
theorem decodeFrom_encode (c : Char) :
    decodeFrom pos none before (String.utf8EncodeChar c ++ bytes) =
      decodeFrom (pos + (String.utf8EncodeChar c).length) none (c :: before) bytes := by
  obtain ⟨b, value, bounds, bs, hbytes, hform, hbs, hcode⟩ := exists_form c
  rw [hbytes, List.cons_append, decodeFrom, hform.eq]
  cases bounds with
  | nil =>
    obtain rfl := List.forall₂_nil_left_iff.mp hbs
    obtain rfl : value = c.toNat := hcode
    dsimp only
    rw [Char.ofNat_toNat, List.nil_append, List.length_singleton]
  | cons next later =>
    dsimp only
    rw [decodeFrom_due hbs, hcode, Char.ofNat_toNat, List.length_cons, Nat.add_assoc,
      Nat.add_comm 1]

/-- Bytes that are a text start with those of a character. -/
theorem exists_encode (h : decodeFrom pos none before (b :: bytes) = .ok cs) :
    ∃ c rest, b :: bytes = String.utf8EncodeChar c ++ rest := by
  rw [decodeFrom] at h
  split at h
  · cases h
  · next value hform =>
    have hchar : String.utf8EncodeChar (Char.ofNat value) = [b] :=
      encode_of_form (form?_eq_some_iff.mp hform) .nil
    exact ⟨Char.ofNat value, bytes, by rw [hchar, List.singleton_append]⟩
  · next value next later hform =>
    obtain ⟨bs, rest, rfl, hbs⟩ := exists_due h
    have hchar := encode_of_form (form?_eq_some_iff.mp hform) hbs
    exact ⟨Char.ofNat (code value bs), rest, by rw [hchar, List.cons_append]⟩

/-! ## 4. Texts -/

/-- The bytes of a text. -/
def encode (cs : List Char) : List UInt8 := cs.flatMap String.utf8EncodeChar

theorem encode_cons (c : Char) (cs : List Char) :
    encode (c :: cs) = String.utf8EncodeChar c ++ encode cs :=
  List.flatMap_cons

theorem decodeFrom_encode_all (pos : Nat) (before cs : List Char) :
    decodeFrom pos none before (encode cs) = .ok (before.reverse ++ cs) := by
  induction cs generalizing pos before with
  | nil =>
    rw [List.append_nil]
    rfl
  | cons c cs ih =>
    rw [encode_cons, decodeFrom_encode, ih, List.reverse_cons, List.append_assoc,
      List.singleton_append]

/-- Bytes that are a text are the encoding of some text. -/
theorem exists_encode_all {bytes : List UInt8} {pos : Nat} {before cs : List Char}
    (h : decodeFrom pos none before bytes = .ok cs) : ∃ ds, bytes = encode ds := by
  cases bytes with
  | nil => exact ⟨[], rfl⟩
  | cons b bytes =>
    obtain ⟨c, rest, hbytes⟩ := exists_encode h
    rw [hbytes, decodeFrom_encode] at h
    have hshorter : rest.length < (b :: bytes).length := by
      have hpos := List.length_pos_of_ne_nil (String.utf8EncodeChar_ne_nil (c := c))
      rw [hbytes, List.length_append]
      omega
    obtain ⟨ds, hds⟩ := exists_encode_all h
    exact ⟨c :: ds, by rw [hbytes, hds, encode_cons]⟩
termination_by bytes.length

/-- **Bytes are decoded to a text exactly if they encode it.** -/
theorem decode_eq_ok_iff {bytes : List UInt8} {cs : List Char} :
    decode bytes = .ok cs ↔ bytes = encode cs := by
  constructor
  · intro h
    obtain ⟨ds, rfl⟩ := exists_encode_all h
    rw [decode, decodeFrom_encode_all] at h
    exact congrArg encode (Except.ok.inj h)
  · rintro rfl
    exact decodeFrom_encode_all 0 [] cs

/-- Bytes are a text exactly if they are valid. -/
theorem exists_decode_iff {bytes : List UInt8} :
    (∃ cs, decode bytes = .ok cs) ↔ bytes.toByteArray.IsValidUTF8 := by
  constructor
  · rintro ⟨cs, h⟩
    rw [decode_eq_ok_iff.mp h]
    exact ByteArray.isValidUTF8_utf8Encode
  · rintro ⟨cs, h⟩
    exact ⟨cs, decode_eq_ok_iff.mpr (List.toByteArray_inj.mp h)⟩

end Sigil.Text.Utf8
