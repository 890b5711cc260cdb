import CallCost.Text.Utf8

/-!
Decoding what was encoded gives the text back. After the octets of a character the decoder stands
between two characters again, whatever was read before. The bounds on a second octet shut out no
character: below them a shorter form exists, and above them the bits are no code point of one.
-/

namespace CallCost.Text.Utf8

theorem first_one {bits : Nat} (small : bits < 128) :
    first bits = (.start, some (Char.ofNat bits)) := by
  simp only [first, Nat.le_of_lt_succ small, if_true]

theorem first_two :
    ∀ bits < 32, 2 ≤ bits → first (bits + 192) = (.within 1 bits 0x80 0xBF, none) := by
  decide

theorem first_three :
    ∀ bits < 16, first (bits + 224) =
      (.within 2 bits (if bits = 0 then 0xA0 else 0x80) (if bits = 13 then 0x9F else 0xBF),
        none) := by
  decide

theorem first_four :
    ∀ bits < 5, first (bits + 240) =
      (.within 3 bits (if bits = 0 then 0x90 else 0x80) (if bits = 4 then 0x8F else 0xBF),
        none) := by
  decide

section Steps

variable (done : List Char) {owed bits low high n : Nat}

theorem step_start (small : n < 256) :
    step (.start, done) (UInt8.ofNat n) = ((first n).1, (first n).2.toList ++ done) := by
  simp only [step, UInt8.toNat_ofNat_of_lt' small]

/-- An octet that goes on with a character gives it six more bits. -/
theorem step_within (small : n < 64) (above : low ≤ n + 128) (below : n + 128 ≤ high) :
    step (.within owed bits low high, done) (UInt8.ofNat (n + 128)) =
      if owed ≤ 1 then (.start, Char.ofNat (bits * 64 + n) :: done)
      else (.within (owed - 1) (bits * 64 + n) 0x80 0xBF, done) := by
  have octet : n + 128 < 256 := by omega
  simp only [step, UInt8.toNat_ofNat_of_lt' octet, above, below, and_self, if_true,
    Nat.add_sub_cancel]

end Steps

section Characters

variable (done : List Char) {a b c d : Nat}

theorem foldl_two (two : 2 ≤ a) (ha : a < 32) (hb : b < 64) :
    [UInt8.ofNat (a + 192), UInt8.ofNat (b + 128)].foldl step (.start, done) =
      (.start, Char.ofNat (a * 64 + b) :: done) := by
  simp only [List.foldl_cons, List.foldl_nil, step_start done (by omega : a + 192 < 256),
    first_two a ha two, Option.toList, List.nil_append]
  rw [step_within done hb (by omega) (by omega), if_pos (Nat.le_refl 1)]

theorem foldl_three (ha : a < 16) (hb : b < 64) (hc : c < 64) (three : a = 0 → 32 ≤ b)
    (character : a = 13 → b < 32) :
    [UInt8.ofNat (a + 224), UInt8.ofNat (b + 128), UInt8.ofNat (c + 128)].foldl step
        (.start, done) =
      (.start, Char.ofNat ((a * 64 + b) * 64 + c) :: done) := by
  have above : (if a = 0 then 0xA0 else 0x80) ≤ b + 128 := by split <;> omega
  have below : b + 128 ≤ if a = 13 then 0x9F else 0xBF := by split <;> omega
  simp only [List.foldl_cons, List.foldl_nil, step_start done (by omega : a + 224 < 256),
    first_three a ha, Option.toList, List.nil_append]
  rw [step_within done hb above below, if_neg (by decide),
    step_within done hc (by omega) (by omega), if_pos (by decide)]

theorem foldl_four (ha : a < 5) (hb : b < 64) (hc : c < 64) (hd : d < 64)
    (four : a = 0 → 16 ≤ b) (character : a = 4 → b < 16) :
    [UInt8.ofNat (a + 240), UInt8.ofNat (b + 128), UInt8.ofNat (c + 128),
        UInt8.ofNat (d + 128)].foldl step (.start, done) =
      (.start, Char.ofNat (((a * 64 + b) * 64 + c) * 64 + d) :: done) := by
  have above : (if a = 0 then 0x90 else 0x80) ≤ b + 128 := by split <;> omega
  have below : b + 128 ≤ if a = 4 then 0x8F else 0xBF := by split <;> omega
  simp only [List.foldl_cons, List.foldl_nil, step_start done (by omega : a + 240 < 256),
    first_four a ha, Option.toList, List.nil_append]
  rw [step_within done hb above below, if_neg (by decide),
    step_within done hc (by omega) (by omega), if_neg (by decide),
    step_within done hd (by omega) (by omega), if_pos (by decide)]

end Characters

theorem foldl_encodeChar (c : Char) (done : List Char) :
    (String.utf8EncodeChar c).foldl step (.start, done) = (.start, c :: done) := by
  have valid : Nat.isValidChar c.val.toNat := c.valid
  have same : Char.ofNat c.val.toNat = c := c.ofNat_toNat
  simp only [String.utf8EncodeChar]
  generalize c.val.toNat = v at valid same ⊢
  by_cases one : v ≤ 127
  · rw [if_pos one, List.foldl_cons, List.foldl_nil, step_start done (by omega),
      first_one (by omega), same]
    rfl
  by_cases two : v ≤ 2047
  · have bits : v / 64 % 32 * 64 + v % 64 = v := by omega
    rw [if_neg one, if_pos two, foldl_two done (by omega) (by omega) (by omega), bits, same]
  by_cases three : v ≤ 65535
  · have bits : (v / 4096 % 16 * 64 + v / 64 % 64) * 64 + v % 64 = v := by omega
    rw [if_neg one, if_neg two, if_pos three, foldl_three done (by omega) (by omega) (by omega)
      (by omega) (by omega), bits, same]
  · have bits : ((v / 262144 % 8 * 64 + v / 4096 % 64) * 64 + v / 64 % 64) * 64 + v % 64 = v := by
      omega
    rw [if_neg one, if_neg two, if_neg three, foldl_four done (by omega) (by omega) (by omega)
      (by omega) (by omega) (by omega), bits, same]

theorem foldl_encodeChars (text done : List Char) :
    (text.flatMap String.utf8EncodeChar).foldl step (.start, done) =
      (.start, text.reverse ++ done) := by
  induction text generalizing done with
  | nil => rfl
  | cons c rest ih =>
      rw [List.flatMap_cons, List.foldl_append, foldl_encodeChar, ih, List.reverse_cons,
        List.append_assoc, List.singleton_append]

theorem encode_eq (text : String) :
    encode text = text.toList.flatMap String.utf8EncodeChar := by
  rw [encode, String.toUTF8, ← String.utf8Encode_toList, List.utf8Encode, List.data_toByteArray]

theorem decode_encode (text : String) : decode (encode text) = text.toList := by
  simp only [decode, encode_eq, foldl_encodeChars, List.append_nil, List.reverse_reverse]

end CallCost.Text.Utf8
