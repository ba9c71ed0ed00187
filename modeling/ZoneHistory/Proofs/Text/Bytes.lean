import Mathlib.Data.String.Basic

/-!
# The order of texts is that of their bytes

Texts are compared character by character, and their UTF-8 bytes are in the same order
(`bytes_lt_bytes_iff`). A character is a first byte and continuation bytes of six bits each, so that
two characters with equally many bytes first differ where their numbers do (`spread_append_lt`).
Of two others, the one with more bytes has the greater first byte (`lead_lt_lead`).
-/

namespace ZoneHistory.Text

/-- The bytes of a text in UTF-8. -/
def bytes (s : String) : List UInt8 :=
  s.toUTF8.data.toList

theorem bytes_eq (s : String) : bytes s = s.toList.flatMap String.utf8EncodeChar := by
  rw [bytes, String.toUTF8_eq_toByteArray, ← String.utf8Encode_toList, List.utf8Encode,
    List.data_toByteArray]

theorem byte_lt_byte {m n : Nat} (h : m < n) (hn : n < 256) : UInt8.ofNat m < UInt8.ofNat n := by
  rw [UInt8.lt_iff_toNat_lt, UInt8.toNat_ofNat', UInt8.toNat_ofNat']
  omega

/-! ## Characters -/

/-- How many continuation bytes the character with the number has. -/
def continuations (v : Nat) : Nat :=
  if v ≤ 127 then 0 else if v ≤ 2047 then 1 else if v ≤ 65535 then 2 else 3

/-- What marks a first byte that has so many continuation bytes after it. -/
def mark : Nat → Nat
  | 0 => 0
  | 1 => 192
  | 2 => 224
  | _ => 240

/-- The first byte of the character with the number. -/
def lead (v : Nat) : Nat :=
  mark (continuations v) + v / 64 ^ continuations v

/-- A number as a first byte over a mark and continuation bytes. -/
def spread (mark : Nat) : Nat → Nat → List UInt8
  | 0, v => [UInt8.ofNat (mark + v)]
  | k + 1, v => spread mark k (v / 64) ++ [UInt8.ofNat (128 + v % 64)]

theorem toNat_lt (c : Char) : c.toNat < 1114112 := by
  rcases c.valid with h | h
  · exact Nat.lt_trans h (by decide)
  · exact h.2

theorem utf8EncodeChar_eq (c : Char) : String.utf8EncodeChar c =
    spread (mark (continuations c.toNat)) (continuations c.toNat) c.toNat := by
  have hlast := toNat_lt c
  have hval : c.val.toNat = c.toNat := rfl
  simp only [String.utf8EncodeChar, continuations, hval]
  generalize c.toNat = v at hlast
  split
  · simp [spread, mark]
  split
  · have hbits : v / 64 % 32 = v / 64 := by omega
    simp [spread, mark, hbits, Nat.add_comm]
  split
  · have hbits : v / 4096 % 16 = v / 64 / 64 := by omega
    simp [spread, mark, hbits, Nat.add_comm]
  · have hbits : v / 262144 % 8 = v / 64 / 64 / 64 := by omega
    have hsix : v / 4096 % 64 = v / 64 / 64 % 64 := by omega
    simp [spread, mark, hbits, hsix, Nat.add_comm]

theorem spread_eq_cons (top k v : Nat) :
    ∃ rest, spread top k v = UInt8.ofNat (top + v / 64 ^ k) :: rest := by
  induction k generalizing v with
  | zero => exact ⟨[], by simp [spread]⟩
  | succ k ih =>
      obtain ⟨rest, hrest⟩ := ih (v / 64)
      refine ⟨rest ++ [UInt8.ofNat (128 + v % 64)], ?_⟩
      rw [spread, hrest, Nat.div_div_eq_div_mul, Nat.pow_succ', List.cons_append]

theorem utf8EncodeChar_eq_cons (c : Char) :
    ∃ rest, String.utf8EncodeChar c = UInt8.ofNat (lead c.toNat) :: rest := by
  rw [utf8EncodeChar_eq]
  exact spread_eq_cons _ _ _

/-- With equally many bytes, the first that differs decides, whatever follows. -/
theorem spread_append_lt {top k m n : Nat} (h : m < n) (hlead : top + n / 64 ^ k < 256)
    (s t : List UInt8) : spread top k m ++ s < spread top k n ++ t := by
  induction k generalizing m n s t with
  | zero =>
      rw [Nat.pow_zero, Nat.div_one] at hlead
      exact List.cons_lt_cons_iff.mpr (Or.inl (byte_lt_byte (by omega) hlead))
  | succ k ih =>
      rw [Nat.pow_succ', ← Nat.div_div_eq_div_mul] at hlead
      rw [spread, spread, List.append_assoc, List.append_assoc]
      rcases Nat.lt_or_eq_of_le (Nat.div_le_div_right h.le : m / 64 ≤ n / 64) with hlt | heq
      · exact ih hlt hlead _ _
      · rw [heq]
        have hlast : UInt8.ofNat (128 + m % 64) < UInt8.ofNat (128 + n % 64) :=
          byte_lt_byte (by omega) (by omega)
        exact List.append_left_lt (List.cons_lt_cons_iff.mpr (Or.inl hlast))

theorem lead_cases (v : Nat) :
    (continuations v = 0 ∧ v ≤ 127 ∧ lead v = v) ∨
    (continuations v = 1 ∧ 127 < v ∧ v ≤ 2047 ∧ lead v = 192 + v / 64) ∨
    (continuations v = 2 ∧ 2047 < v ∧ v ≤ 65535 ∧ lead v = 224 + v / 4096) ∨
    (continuations v = 3 ∧ 65535 < v ∧ lead v = 240 + v / 262144) := by
  simp only [lead, continuations]
  by_cases h1 : v ≤ 127
  · simp [h1, mark]
  by_cases h2 : v ≤ 2047
  · simp [h1, h2, mark]
    omega
  by_cases h3 : v ≤ 65535
  · simp [h1, h2, h3, mark]
    omega
  · simp [h1, h2, h3, mark]
    omega

theorem lead_lt (c : Char) : lead c.toNat < 256 := by
  have hlast := toNat_lt c
  rcases lead_cases c.toNat with h | h | h | h <;> omega

theorem continuations_mono {m n : Nat} (h : m < n) : continuations m ≤ continuations n := by
  rcases lead_cases m with hm | hm | hm | hm <;> rcases lead_cases n with hn | hn | hn | hn <;>
    omega

theorem lead_lt_lead {m n : Nat} (h : continuations m < continuations n) : lead m < lead n := by
  rcases lead_cases m with hm | hm | hm | hm <;> rcases lead_cases n with hn | hn | hn | hn <;>
    omega

theorem utf8EncodeChar_append_lt {c d : Char} (h : c < d) (s t : List UInt8) :
    String.utf8EncodeChar c ++ s < String.utf8EncodeChar d ++ t := by
  have hlt : c.toNat < d.toNat := h
  rcases Nat.lt_or_eq_of_le (continuations_mono hlt) with hfewer | hsame
  · obtain ⟨rest, hc⟩ := utf8EncodeChar_eq_cons c
    obtain ⟨rest', hd⟩ := utf8EncodeChar_eq_cons d
    rw [hc, hd]
    exact List.cons_lt_cons_iff.mpr (Or.inl (byte_lt_byte (lead_lt_lead hfewer) (lead_lt d)))
  · rw [utf8EncodeChar_eq, utf8EncodeChar_eq, hsame]
    exact spread_append_lt hlt (lead_lt d) s t

/-! ## Texts -/

theorem flatMap_utf8EncodeChar_lt {cs ds : List Char} (h : cs < ds) :
    cs.flatMap String.utf8EncodeChar < ds.flatMap String.utf8EncodeChar := by
  induction h with
  | @nil d ds =>
      obtain ⟨rest, hd⟩ := utf8EncodeChar_eq_cons d
      rw [List.flatMap_cons, hd]
      exact List.nil_lt_cons _ _
  | rel h => exact utf8EncodeChar_append_lt h _ _
  | cons _ ih => exact List.append_left_lt ih

theorem bytes_lt_bytes {s t : String} (h : s < t) : bytes s < bytes t := by
  rw [bytes_eq, bytes_eq]
  exact flatMap_utf8EncodeChar_lt (String.lt_iff.mp h)

theorem bytes_lt_bytes_iff {s t : String} : bytes s < bytes t ↔ s < t := by
  refine ⟨?_, bytes_lt_bytes⟩
  intro h
  rcases lt_trichotomy s t with hlt | heq | hgt
  · exact hlt
  · subst heq
    exact absurd h (List.lt_irrefl _)
  · exact absurd (bytes_lt_bytes hgt) (List.lt_asymm h)

end ZoneHistory.Text
