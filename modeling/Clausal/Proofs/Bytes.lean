import Clausal.Proofs.Dimacs
/-! Texts as bytes. A text is decoded from its UTF-8 form, no byte of another character looks like a
line break, and so a formula file is read as the text it holds. -/
namespace Clausal

namespace Text

variable {c : Char} {v : Nat}

/-! ## Bytes of a text -/

theorem toList_loop (bytes : ByteArray) (i : Nat) (taken : List UInt8) :
    ByteArray.toList.loop bytes i taken = taken.reverse ++ bytes.data.toList.drop i := by
  fun_induction ByteArray.toList.loop bytes i taken with
  | case1 i taken h ih =>
    have hi : i < bytes.data.toList.length := by simpa using h
    rw [ih, List.drop_eq_getElem_cons hi]
    simp [ByteArray.get!, h]
  | case2 i taken h =>
    rw [List.drop_eq_nil_of_le (by simpa using Nat.le_of_not_lt h)]
    simp

theorem toList_toUTF8 (s : String) :
    s.toUTF8.toList = s.toList.flatMap String.utf8EncodeChar := by
  have hbytes : s.toUTF8 = (s.toList.flatMap String.utf8EncodeChar).toByteArray :=
    String.utf8Encode_toList.symm
  rw [ByteArray.toList, toList_loop, hbytes]
  simp

/-! ## Decoding -/

theorem continuation_cons {more value low high n : Nat} (hn : n < 256) (hlow : low ≤ n)
    (hhigh : n ≤ high) (bytes : List UInt8) :
    continuation (more + 1) value low high (UInt8.ofNat n :: bytes) =
      continuation more (64 * value + (n - 0x80)) 0x80 0xBF bytes := by
  rw [continuation, UInt8.toNat_ofNat_of_lt' hn, if_pos (by simp [hlow, hhigh])]

theorem firstChar_ofNat {n more value low high : Nat} (hn : n < 256) (hlow : 0x80 ≤ n)
    (h : leading? n = some (more, value, low, high)) (bytes : List UInt8) :
    firstChar (UInt8.ofNat n) bytes = continuation more value low high bytes := by
  rw [firstChar, UInt8.toNat_ofNat_of_lt' hn, if_neg (Nat.not_lt.2 hlow), h]

theorem leading?_two (h : 0xC2 ≤ v) (h' : v ≤ 0xDF) :
    leading? v = some (1, v - 0xC0, 0x80, 0xBF) := by
  rw [leading?, if_pos (by simp [h, h'])]

/-- The second of three bytes is in the range that the first one leaves it. -/
theorem leading?_three (h : 0x7FF < v) (h' : v ≤ 0xFFFF) (hvalid : v < 0xD800 ∨ 0xDFFF < v) :
    ∃ low high, leading? (v / 4096 % 16 + 224) = some (2, v / 4096, low, high) ∧
      low ≤ v / 64 % 64 + 128 ∧ v / 64 % 64 + 128 ≤ high := by
  -- After 0xE0 no overlong form may follow, after 0xED no surrogate.
  by_cases he0 : v / 4096 = 0
  · exact ⟨0xA0, 0xBF, by simp [leading?, he0], by omega, by omega⟩
  by_cases hed : v / 4096 = 0xD
  · exact ⟨0x80, 0x9F, by simp [leading?, hed], by omega, by omega⟩
  have hmod : v / 4096 % 16 = v / 4096 := by omega
  refine ⟨0x80, 0xBF, ?_, by omega, by omega⟩
  rw [hmod, leading?, if_neg (by simp), if_neg (by simp; omega), if_neg (by simp; omega),
    if_pos (by simp; omega), Nat.add_sub_cancel]

theorem leading?_four (h : 0xFFFF < v) (h' : v < 0x110000) :
    ∃ low high, leading? (v / 262144 % 8 + 240) = some (3, v / 262144, low, high) ∧
      low ≤ v / 4096 % 64 + 128 ∧ v / 4096 % 64 + 128 ≤ high := by
  by_cases hf0 : v / 262144 = 0
  · exact ⟨0x90, 0xBF, by simp [leading?, hf0], by omega, by omega⟩
  by_cases hf4 : v / 262144 = 4
  · exact ⟨0x80, 0x8F, by simp [leading?, hf4], by omega, by omega⟩
  have hmod : v / 262144 % 8 = v / 262144 := by omega
  refine ⟨0x80, 0xBF, ?_, by omega, by omega⟩
  rw [hmod, leading?, if_neg (by simp), if_neg (by simp), if_neg (by simp), if_neg (by simp),
    if_neg (by simp; omega), if_pos (by simp; omega), Nat.add_sub_cancel]

/-- The bytes of a character. -/
def encode (v : Nat) : List UInt8 :=
  if v ≤ 0x7F then [.ofNat v]
  else if v ≤ 0x7FF then [.ofNat (v / 64 % 32 + 192), .ofNat (v % 64 + 128)]
  else if v ≤ 0xFFFF then
    [.ofNat (v / 4096 % 16 + 224), .ofNat (v / 64 % 64 + 128), .ofNat (v % 64 + 128)]
  else
    [.ofNat (v / 262144 % 8 + 240), .ofNat (v / 4096 % 64 + 128), .ofNat (v / 64 % 64 + 128),
      .ofNat (v % 64 + 128)]

theorem utf8EncodeChar_eq (c : Char) : String.utf8EncodeChar c = encode c.toNat := rfl

theorem firstChar_encode (hvalid : v < 0xD800 ∨ 0xDFFF < v ∧ v < 0x110000) (rest : List UInt8) :
    ∃ b bytes, encode v = b :: bytes ∧
      firstChar b (bytes ++ rest) = (some (Char.ofNat v), rest) := by
  have hchar {n : Nat} (hn : n = v) :
      (some (Char.ofNat n), rest) = (some (Char.ofNat v), rest) := by rw [hn]
  rw [encode]
  by_cases hone : v ≤ 0x7F
  · rw [if_pos hone]
    refine ⟨_, _, rfl, ?_⟩
    rw [firstChar, UInt8.toNat_ofNat_of_lt' (Nat.lt_of_le_of_lt ‹_› (by decide)), if_pos (by omega),
      List.nil_append]
  rw [if_neg hone]
  by_cases htwo : v ≤ 0x7FF
  · rw [if_pos htwo]
    refine ⟨_, _, rfl, ?_⟩
    rw [firstChar_ofNat (by omega) (by omega) (leading?_two (by omega) (by omega)),
      List.cons_append, continuation_cons (by omega) (by omega) (by omega)]
    exact hchar (by omega)
  rw [if_neg htwo]
  by_cases hthree : v ≤ 0xFFFF
  · rw [if_pos hthree]
    obtain ⟨low, high, hleading, hlow, hhigh⟩ :=
      leading?_three (by omega) hthree (hvalid.imp_right And.left)
    refine ⟨_, _, rfl, ?_⟩
    rw [firstChar_ofNat (by omega) (by omega) hleading,
      List.cons_append, continuation_cons (by omega) hlow hhigh,
      List.cons_append, continuation_cons (by omega) (by omega) (by omega)]
    exact hchar (by omega)
  · rw [if_neg hthree]
    obtain ⟨low, high, hleading, hlow, hhigh⟩ := leading?_four (v := v) (by omega) (by omega)
    refine ⟨_, _, rfl, ?_⟩
    rw [firstChar_ofNat (by omega) (by omega) hleading,
      List.cons_append, continuation_cons (by omega) hlow hhigh,
      List.cons_append, continuation_cons (by omega) (by omega) (by omega),
      List.cons_append, continuation_cons (by omega) (by omega) (by omega)]
    exact hchar (by omega)

theorem decodeParts_encode (cs : List Char) :
    decodeParts (cs.flatMap String.utf8EncodeChar) = cs.map some := by
  induction cs with
  | nil => rw [List.flatMap_nil, decodeParts, List.map_nil]
  | cons c cs ih =>
    obtain ⟨b, bytes, hencode, hfirst⟩ :=
      firstChar_encode (v := c.toNat) c.valid (cs.flatMap String.utf8EncodeChar)
    rw [List.flatMap_cons, utf8EncodeChar_eq, hencode, List.cons_append, decodeParts, hfirst, ih,
      Char.ofNat_toNat, List.map_cons]

theorem decode?_encode (cs : List Char) : decode? (cs.flatMap String.utf8EncodeChar) = some cs := by
  rw [decode?, decodeParts_encode]
  induction cs with
  | nil => rfl
  | cons c cs ih => simp [ih]

/-! ## Lines of bytes -/

/-- Only a character below 128 has a byte below 128, and that is the character itself. -/
theorem mem_encode {b : UInt8} (h : b ∈ encode v) : b.toNat = v ∨ 0x80 ≤ b.toNat := by
  rw [encode] at h
  split at h
  · obtain rfl := List.mem_singleton.1 h
    exact .inl (UInt8.toNat_ofNat_of_lt' (Nat.lt_of_le_of_lt ‹_› (by decide)))
  · have hbyte : ∃ n, 0x80 ≤ n ∧ n < 256 ∧ b = .ofNat n := by
      split at h
      · simp only [List.mem_cons, List.not_mem_nil, or_false] at h
        rcases h with rfl | rfl <;> exact ⟨_, by omega, by omega, rfl⟩
      · split at h
        · simp only [List.mem_cons, List.not_mem_nil, or_false] at h
          rcases h with rfl | rfl | rfl <;> exact ⟨_, by omega, by omega, rfl⟩
        · simp only [List.mem_cons, List.not_mem_nil, or_false] at h
          rcases h with rfl | rfl | rfl | rfl <;> exact ⟨_, by omega, by omega, rfl⟩
    obtain ⟨n, hlow, hn, rfl⟩ := hbyte
    rw [UInt8.toNat_ofNat_of_lt' hn]
    exact .inr hlow

theorem newline_not_mem_encode (h : c ≠ '\n') : '\n'.toUInt8 ∉ String.utf8EncodeChar c := by
  intro hmem
  rcases mem_encode (v := c.toNat) hmem with hc | hc
  · exact h (by rw [← Char.ofNat_toNat c, ← hc]; rfl)
  · exact absurd hc (by decide)

theorem pieces_append_of_forall {α : Type*} {p : α → Bool} {run s : List α}
    (hrun : ∀ b ∈ run, p b = false) :
    pieces p (run ++ s) = (pieces p s).modifyHead (run ++ ·) := by
  obtain ⟨piece, others, hpieces⟩ := List.exists_cons_of_ne_nil (pieces_ne_nil p s)
  induction run with
  | nil => rw [List.nil_append, hpieces]; rfl
  | cons b run ih =>
    rw [List.forall_mem_cons] at hrun
    rw [List.cons_append, pieces_cons, if_neg (by simp [hrun.1]), ih hrun.2, hpieces]
    rfl

theorem pieces_encode (cs : List Char) :
    pieces (· == '\n'.toUInt8) (cs.flatMap String.utf8EncodeChar) =
      (lines cs).map (·.flatMap String.utf8EncodeChar) := by
  induction cs with
  | nil => rfl
  | cons c cs ih =>
    by_cases hc : c = '\n'
    · subst hc
      exact congrArg ([] :: ·) ih
    · have hrun : ∀ b ∈ String.utf8EncodeChar c, (b == '\n'.toUInt8) = false := fun b hb => by
        simpa using fun h : b = '\n'.toUInt8 => newline_not_mem_encode hc (h ▸ hb)
      have hchar : ∀ d ∈ [c], (d == '\n') = false := by simpa using hc
      have hlines : lines (c :: cs) = (lines cs).modifyHead (c :: ·) :=
        pieces_append_of_forall hchar
      rw [List.flatMap_cons, pieces_append_of_forall hrun, ih, hlines]
      cases lines cs <;> rfl

end Text

theorem Dimacs.readBytes_toUTF8 (text : String) : readBytes text.toUTF8 = read text := by
  have hlines : (Text.pieces (· == '\n'.toUInt8) text.toUTF8.toList).map Text.decode? =
      (Text.lines text.toList).map some := by
    rw [Text.toList_toUTF8, Text.pieces_encode, List.map_map]
    exact List.map_congr_left fun l _ => Text.decode?_encode l
  rw [readBytes, hlines, read]

end Clausal
